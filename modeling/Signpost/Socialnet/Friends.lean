import Signpost.Socialnet.AddressBook

/-! # Looking up friends

Users are created for the friends of a user in a social network, as often as these are
looked up. What goes wrong for one friend is caught, and can lock the database for the next.
-/

namespace Signpost.SqliteController

open Machine

variable {κ : Type} [DecidableEq κ]

/-! ## Going through friends -/

/-- The tables while friends are gone through. What has been caught last keeps its connection,
so that the database stays locked if that has a transaction open. -/
structure SocialNet (κ : Type) where
  db : Database κ
  locked : Bool
deriving DecidableEq

/-- A constraint is violated in a transaction that has been begun for writing. -/
def leavesTransaction (e : SqlError) : Bool := e = .integrityError

/-- The exception of a creation that fails is caught, and takes the place of what has been
caught before. -/
def SocialNet.created (net : SocialNet κ) : Database κ × Except SqlError Unit → SocialNet κ
  | (db, .ok ()) => { net with db }
  | (db, .error e) => ⟨db, leavesTransaction e⟩

/-- What is done for a friend: nothing for one who exists. A lookup in the social network
that fails is caught as well, and has no connection. -/
def lookUpFriend (getUser : κ → Option (κ × κ)) (now : κ → String) (net : SocialNet κ) (index : κ) :
    SocialNet κ :=
  match net.db.checkIfUserExists (.value index) with
  | .ok false =>
      match getUser index with
      | none => { net with locked := false }
      | some (name, screenName) =>
          net.created (createUserUnder (fun _ => net.locked) net.db
            ⟨.value name, .value screenName, .value index, now index⟩)
  | _ => net

/-- The friends are in the order in which they come out of a set. -/
def goThrough (getUser : κ → Option (κ × κ)) (now : κ → String) (db : Database κ)
    (symmetricFriendship : List κ) : SocialNet κ :=
  symmetricFriendship.foldl (lookUpFriend getUser now) ⟨db, false⟩

def updateSocialNetTweepy (getUser : κ → Option (κ × κ)) (now : κ → String) (db : Database κ)
    (symmetricFriendship : List κ) : Database κ :=
  (goThrough getUser now db symmetricFriendship).db

/-- The friend is a user already, is not found, or has the name of another user. -/
def SettledFriend (getUser : κ → Option (κ × κ)) (db : Database κ) (index : κ) : Prop :=
  some index ∈ db.users.map User.twitterApiId ∨
    ∀ name screenName, getUser index = some (name, screenName) →
      some name ∈ db.users.map User.name

section

variable {getUser : κ → Option (κ × κ)} {now later : κ → String} {db : Database κ} {index : κ}

theorem checkIfUserExists_value (db : Database κ) (index : κ) :
    db.checkIfUserExists (.value index) =
      .ok (decide (some index ∈ db.users.map User.twitterApiId)) := by
  have hfind : (db.users.find? fun user => user.twitterApiId = some index).isSome =
      decide (some index ∈ db.users.map User.twitterApiId) := by
    rw [Bool.eq_iff_iff, List.find?_isSome]
    simp [eq_comm]
  rw [← hfind]
  simp [Database.checkIfUserExists, bindArg, bind, Except.bind, pure, Except.pure]

/-- The second commit leaves the first table alone. -/
theorem users_createUser {call : Call κ} {committed : Database κ}
    (hinsert : db.insertUser call.username call.userId = .ok committed) :
    (createUser db call).1.users = committed.users := by
  simp only [createUser, hinsert]
  cases hlink : linkUser committed call with
  | error e => rfl
  | ok linked =>
      obtain ⟨entries, -, hinserted⟩ := bind_eq_ok.mp hlink
      obtain ⟨signpostname, -, -, rfl⟩ := insertUserId_eq_ok hinserted
      rfl

theorem insertUser_value_ne (db : Database κ) (name twitterApiId : κ) :
    db.insertUser (.value name) (.value twitterApiId) ≠ .error .interfaceError := by
  simp only [Database.insertUser, bindArg, bind, Except.bind]
  split
  next => simp
  next => split <;> simp

omit [DecidableEq κ] in
@[simp] theorem db_created (net : SocialNet κ) (result : Database κ × Except SqlError Unit) :
    (net.created result).db = result.1 := by
  obtain ⟨db, _ | _⟩ := result <;> rfl

/-- A locked database refuses the first insertion. -/
theorem createUserUnder_locked {call : Call κ}
    (hbound : db.insertUser call.username call.userId ≠ .error .interfaceError) :
    createUserUnder (fun _ => true) db call = (db, .error .operationalError) := by
  simp only [createUserUnder, underLock_true hbound, bind, Except.bind]

/-- A friend who is not settled is created, unless the transaction of another one is open. -/
theorem lookUpFriend_cases (getUser : κ → Option (κ × κ)) (now : κ → String) (net : SocialNet κ)
    (index : κ) :
    (SettledFriend getUser net.db index ∧ (lookUpFriend getUser now net index).db = net.db) ∨
      ¬ SettledFriend getUser net.db index ∧
        ((net.locked = true ∧ lookUpFriend getUser now net index = ⟨net.db, false⟩) ∨
          net.locked = false ∧ ∃ user,
            (lookUpFriend getUser now net index).db.users = net.db.users ++ [user] ∧
              user.twitterApiId = some index) := by
  obtain ⟨db, locked⟩ := net
  unfold lookUpFriend
  rw [checkIfUserExists_value]
  by_cases hexists : some index ∈ db.users.map User.twitterApiId
  · exact .inl ⟨.inl hexists, by simp [hexists]⟩
  cases hfound : getUser index with
  | none =>
      refine .inl ⟨.inr fun name screenName hsome => ?_, by simp [hexists]⟩
      rw [hfound] at hsome
      cases hsome
  | some names =>
      simp only [hexists, decide_false]
      have hbound := insertUser_value_ne db names.1 index
      generalize hcall : (⟨.value names.1, .value names.2, .value index, now index⟩ : Call κ) = call
      cases locked with
      | true =>
          subst hcall
          rw [createUserUnder_locked hbound]
          by_cases hsettled : SettledFriend getUser db index
          · exact .inl ⟨hsettled, rfl⟩
          · exact .inr ⟨hsettled, .inl ⟨rfl, rfl⟩⟩
      | false =>
          rw [createUserUnder_free]
          rcases insertUser_cases db call with
            ⟨hrefused, e, hraised⟩ | ⟨hrefused, _, _, _, _, hinsert⟩
          · rw [createUser_of_refused hraised]
            refine .inl ⟨.inr fun name screenName hsome => ?_, rfl⟩
            obtain rfl := Option.some.inj (hfound.symm.trans hsome)
            subst hcall
            -- the arguments can be bound, and the id is new: it is the name that is taken
            rcases hrefused with hname | hid | ⟨taken, hname, hmem⟩ | ⟨taken, hid, hmem⟩
            · cases hname
            · cases hid
            · cases hname
              exact hmem
            · cases hid
              exact absurd hmem hexists
          · obtain ⟨user, -, -, hbind, hcommitted⟩ := insertUser_eq_ok hinsert
            have husers := users_createUser hinsert
            rw [hcommitted] at husers
            subst hcall
            refine .inr ⟨?_, .inr ⟨rfl, user, ?_, (Except.ok.inj hbind).symm⟩⟩
            · rintro (hsame | htaken)
              · exact hexists hsame
              · exact hrefused (.inr (.inr (.inl ⟨names.1, rfl, htaken names.1 names.2 hfound⟩)))
            · rw [db_created, husers]

omit [DecidableEq κ] in
theorem SettledFriend.mono {grown : Database κ} (hsettled : SettledFriend getUser db index)
    (husers : db.users ⊆ grown.users) : SettledFriend getUser grown index := by
  have hmap : ∀ {f : User κ → Option κ} {v}, v ∈ db.users.map f → v ∈ grown.users.map f := by
    intro f v hv
    obtain ⟨user, huser, rfl⟩ := List.mem_map.mp hv
    exact List.mem_map_of_mem (husers huser)
  exact hsettled.imp hmap fun htaken name screenName hfound => hmap (htaken name screenName hfound)

theorem users_lookUpFriend (getUser : κ → Option (κ × κ)) (now : κ → String) (net : SocialNet κ)
    (index : κ) : net.db.users ⊆ (lookUpFriend getUser now net index).db.users := by
  rcases lookUpFriend_cases getUser now net index with
    ⟨-, hsame⟩ | ⟨-, ⟨-, hsame⟩ | ⟨-, user, husers, -⟩⟩
  · rw [hsame]
    exact List.Subset.refl _
  · rw [hsame]
    exact List.Subset.refl _
  · rw [husers]
    exact List.subset_append_left _ _

/-- Who is gone through while the database is not locked is settled. -/
theorem settled_lookUpFriend {net : SocialNet κ} (hfree : net.locked = false) :
    SettledFriend getUser (lookUpFriend getUser now net index).db index := by
  rcases lookUpFriend_cases getUser now net index with
    ⟨hsettled, hsame⟩ | ⟨-, ⟨hlocked, -⟩ | ⟨-, user, husers, hid⟩⟩
  · rwa [hsame]
  · rw [hfree] at hlocked
    cases hlocked
  · exact .inl (by simp [husers, hid])

theorem lookUpFriend_of_settled {net : SocialNet κ}
    (hsettled : SettledFriend getUser net.db index) :
    (lookUpFriend getUser now net index).db = net.db := by
  rcases lookUpFriend_cases getUser now net index with ⟨-, hsame⟩ | ⟨hnot, -⟩
  · exact hsame
  · exact absurd hsettled hnot

theorem users_foldl_lookUpFriend (getUser : κ → Option (κ × κ)) (now : κ → String)
    (net : SocialNet κ) (friends : List κ) :
    net.db.users ⊆ (friends.foldl (lookUpFriend getUser now) net).db.users := by
  induction friends generalizing net with
  | nil => exact List.Subset.refl _
  | cons index rest ih =>
      exact List.Subset.trans (users_lookUpFriend getUser now net index)
        (ih (lookUpFriend getUser now net index))

theorem foldl_lookUpFriend_of_settled {net : SocialNet κ} {friends : List κ}
    (hsettled : ∀ index ∈ friends, SettledFriend getUser net.db index) :
    (friends.foldl (lookUpFriend getUser now) net).db = net.db := by
  induction friends generalizing net with
  | nil => rfl
  | cons index rest ih =>
      rw [List.forall_mem_cons] at hsettled
      have hfirst : (lookUpFriend getUser now net index).db = net.db :=
        lookUpFriend_of_settled hsettled.1
      rw [List.foldl_cons, ← hfirst]
      apply ih
      rw [hfirst]
      exact hsettled.2

/-- Looking up friends again, in any order and at any time, changes nothing while the social
network tells the same about them, exactly when whoever has been gone through while the
database was locked is settled in the end. -/
theorem updateSocialNetTweepy_again_iff (getUser : κ → Option (κ × κ)) (now : κ → String)
    (db : Database κ) (friends : List κ) :
    (∀ (later : κ → String) (again : List κ), again ⊆ friends →
      updateSocialNetTweepy getUser later (updateSocialNetTweepy getUser now db friends) again =
        updateSocialNetTweepy getUser now db friends) ↔
      ∀ before index after, friends = before ++ index :: after →
        (goThrough getUser now db before).locked →
          SettledFriend getUser (updateSocialNetTweepy getUser now db friends) index := by
  constructor
  · intro hagain before index after hfriends _
    have hmem : index ∈ friends := by simp [hfriends]
    have hsame := hagain now [index] (by simpa using hmem)
    -- the update starts with a database that is not locked
    have hsettled : SettledFriend getUser (updateSocialNetTweepy getUser now
        (updateSocialNetTweepy getUser now db friends) [index]) index :=
      settled_lookUpFriend rfl
    rwa [hsame] at hsettled
  · intro hlocked later again hagain
    apply foldl_lookUpFriend_of_settled
    intro index hindex
    obtain ⟨before, after, hfriends⟩ := List.append_of_mem (hagain hindex)
    cases hfree : (goThrough getUser now db before).locked with
    | true => exact hlocked before index after hfriends hfree
    | false =>
        have hsettled : SettledFriend getUser
            (lookUpFriend getUser now (goThrough getUser now db before) index).db index :=
          settled_lookUpFriend hfree
        apply hsettled.mono
        have hrest : goThrough getUser now db friends = after.foldl (lookUpFriend getUser now)
            (lookUpFriend getUser now (goThrough getUser now db before) index) := by
          rw [hfriends, goThrough, goThrough, List.foldl_append, List.foldl_cons]
        rw [updateSocialNetTweepy, hrest]
        exact users_foldl_lookUpFriend getUser now _ after

end

/-- Bob has the screen name of Alice. -/
def getFriend (index : ℕ) : Option (ℕ × ℕ) :=
  if index = 100 then some (1, 10) else if index = 200 then some (2, 10)
  else if index = 300 then some (3, 30) else none

/-- Carol is created when she comes before Bob, and not after him. -/
example :
    let update := updateSocialNetTweepy getFriend (fun _ => createAlice.now) .empty
    (update [100, 300, 200]).users.length = 3 ∧ (update [100, 200, 300]).users.length = 2 := by
  decide

end Signpost.SqliteController
