import Mathlib.Data.List.Nodup
import Signpost.Socialnet.SqliteController

/-! # The address book of a signpost

Users are created, and keys are stored for the signpost names of users. Every statement
can fail because another connection has locked the database.
-/

namespace Signpost.SqliteController

open Machine

variable {κ : Type} [DecidableEq κ]

/-! ## Keys -/

namespace Database

variable (db : Database κ)

/-- `update userIds set publickey=?, timestamp=? where signpostname=?`. -/
def addUserKey (signpostName key : Arg κ) (now : String) : Except SqlError (Database κ) := do
  let publickey ← bindArg key
  let signpostname ← bindArg signpostName
  return { db with
    userIds := db.userIds.map fun row =>
      if signpostname ≠ none ∧ row.signpostname = signpostname then
        { row with publickey, timestamp := now }
      else row }

/-- `select publickey from userIds where signpostname=?`, and the key of its first row. -/
def getKeyFromUser (signpostName : Arg κ) : Except SqlError (Option (Option κ)) := do
  let signpostname ← bindArg signpostName
  return (db.userIds.find? fun row =>
    signpostname ≠ none ∧ row.signpostname = signpostname).map UserId.publickey

/-- `select userId from users where twitterApiId=?`. -/
def checkIfUserExists (userId : Arg κ) : Except SqlError Bool := do
  let twitterApiId ← bindArg userId
  return (db.users.find? fun user =>
    twitterApiId ≠ none ∧ user.twitterApiId = twitterApiId).isSome

end Database

/-! ## Locks -/

inductive Statement
  | insertUser
  | commitUser
  | selectUser
  | insertUserId
  | commitUserId
  | updateKey
  | commitKey
deriving DecidableEq

/-- Arguments are bound before the lock is asked for, and constraints are checked under it. -/
def underLock {β : Type} (busy : Bool) : Except SqlError β → Except SqlError β
  | .error .interfaceError => .error .interfaceError
  | result => if busy then .error .operationalError else result

def commit {β : Type} (busy : Bool) (written : β) : Except SqlError β :=
  underLock busy (.ok written)

/-- The second half of `createUser`, up to its commit. -/
def linkUserUnder (busy : Statement → Bool) (committed : Database κ) (call : Call κ) :
    Except SqlError (Database κ) := do
  let entries ← underLock (busy .selectUser) (committed.selectUser call.username)
  let linked ← underLock (busy .insertUserId)
    (committed.insertUserId (entries.map User.userId) call.signpostName call.now)
  commit (busy .commitUserId) linked

/-- `createUser` while other connections lock the database. -/
def createUserUnder (busy : Statement → Bool) (db : Database κ) (call : Call κ) :
    Database κ × Except SqlError Unit :=
  match underLock (busy .insertUser) (db.insertUser call.username call.userId) >>=
      commit (busy .commitUser) with
  | .error e => (db, .error e)
  | .ok committed =>
      match linkUserUnder busy committed call with
      | .error e => (committed, .error e)
      | .ok linked => (linked, .ok ())

/-- A method, and the statements that find the database locked. -/
inductive Command (κ : Type)
  | createUser (call : Call κ) (busy : Statement → Bool)
  | addUserKey (signpostName key : Arg κ) (now : String) (busy : Statement → Bool)

/-- What is committed, and how the method ends. -/
def perform (db : Database κ) :
    Command κ → Except Empty (Database κ × Except SqlError Unit)
  | .createUser call busy => .ok (createUserUnder busy db call)
  | .addUserKey signpostName key now busy =>
      match underLock (busy .updateKey) (db.addUserKey signpostName key now) >>=
          commit (busy .commitKey) with
      | .ok updated => .ok (updated, .ok ())
      | .error e => .ok (db, .error e)

abbrev CommandStep (κ : Type) := Transition (Database κ) (Command κ) (Except SqlError Unit)

/-- The key that is known for a signpost name, if the name is. -/
def keyAfter (name : κ) (known : Option (Option κ)) (step : CommandStep κ) : Option (Option κ) :=
  match step.output, step.input with
  | .ok (), .createUser call _ => if call.signpostName = .value name then some none else known
  | .ok (), .addUserKey signpostName key _ _ =>
      if signpostName = .value name then known.bind fun _ => (bindArg key).toOption else known
  | .error _, _ => known

/-- What has been stored last for a signpost name since it was created. -/
def latestKey (name : κ) (steps : List (CommandStep κ)) : Option (Option κ) :=
  steps.foldl (keyAfter name) none

/-! ## Statements and locks -/

section

variable {β : Type} {busy : Bool} {result : Except SqlError β} {value : β}

theorem underLock_false (result : Except SqlError β) : underLock false result = result := by
  unfold underLock
  split <;> rfl

theorem underLock_true (hbound : result ≠ .error .interfaceError) :
    underLock true result = .error .operationalError := by
  unfold underLock
  split
  next => exact absurd rfl hbound
  next => rfl

theorem underLock_eq_ok :
    underLock busy result = .ok value ↔ busy = false ∧ result = .ok value := by
  cases busy with
  | false => simp [underLock_false]
  | true =>
      unfold underLock
      split <;> simp

theorem commit_eq_ok {written : β} :
    commit busy written = .ok value ↔ busy = false ∧ written = value := by
  rw [commit, underLock_eq_ok, Except.ok.injEq]

theorem bind_commit_false (result : Except SqlError β) : result >>= commit false = result := by
  cases result <;> rfl

/-- What is written is what the statement gives, if neither it nor the commit is locked out. -/
theorem eq_ok_of_commit {committing : Bool}
    (hok : underLock busy result >>= commit committing = .ok value) : result = .ok value := by
  obtain ⟨written, hwritten, hcommit⟩ := bind_eq_ok.mp hok
  obtain ⟨-, rfl⟩ := commit_eq_ok.mp hcommit
  exact (underLock_eq_ok.mp hwritten).2

end

theorem createUserUnder_free (db : Database κ) (call : Call κ) :
    createUserUnder (fun _ => false) db call = createUser db call := by
  have hlink : linkUserUnder (fun _ => false) = linkUser (κ := κ) := by
    funext committed call
    simp only [linkUserUnder, linkUser, underLock_false, bind_commit_false]
  have hinsert : (underLock false (db.insertUser call.username call.userId) >>= commit false) =
      db.insertUser call.username call.userId := by
    rw [underLock_false, bind_commit_false]
  unfold createUserUnder createUser
  cases hrow : db.insertUser call.username call.userId with
  | error e =>
      rw [hrow] at hinsert
      simp only [hinsert]
  | ok committed =>
      rw [hrow] at hinsert
      cases hlinked : linkUser committed call <;> simp only [hinsert, hlink, hlinked]

/-! ## What creating a user does -/

/-- A row that the first table takes. -/
structure Fresh (db : Database κ) (user : User κ) : Prop where
  userId : user.userId = db.nextId
  name : ¬ Taken (db.users.map User.name) user.name
  twitterApiId : ¬ Taken (db.users.map User.twitterApiId) user.twitterApiId

inductive Created (db : Database κ) (call : Call κ) : Database κ × Except SqlError Unit → Prop
  | refused (e : SqlError) : Created db call (db, .error e)
  | unlinked (user : User κ) (e : SqlError) (huser : Fresh db user) :
      Created db call ({ db with users := db.users ++ [user] }, .error e)
  | linked (user : User κ) (userId : Option ℕ) (signpostname : Option κ) (huser : Fresh db user)
      (huserId : ∀ id, userId = some id → id = user.userId)
      (hbind : bindArg call.signpostName = .ok signpostname)
      (hname : ¬ Taken (db.userIds.map UserId.signpostname) signpostname) :
      Created db call (⟨db.users ++ [user],
        db.userIds ++ [⟨userId, signpostname, none, call.now⟩]⟩, .ok ())

section

variable {db : Database κ} {call : Call κ}

theorem insertUser_eq_ok {committed : Database κ}
    (hok : db.insertUser call.username call.userId = .ok committed) :
    ∃ user, Fresh db user ∧ bindArg call.username = .ok user.name ∧
      bindArg call.userId = .ok user.twitterApiId ∧
      committed = { db with users := db.users ++ [user] } := by
  unfold Database.insertUser at hok
  cases hname : bindArg call.username with
  | error e =>
      rw [hname] at hok
      cases hok
  | ok name =>
      cases htwitter : bindArg call.userId with
      | error e =>
          rw [hname, htwitter] at hok
          cases hok
      | ok twitterApiId =>
          simp only [hname, htwitter, bind, Except.bind] at hok
          split at hok
          next => cases hok
          next hnameFree =>
          split at hok
          next => cases hok
          next htwitterFree =>
            obtain rfl := Except.ok.inj hok
            exact ⟨⟨db.nextId, name, twitterApiId⟩, ⟨rfl, hnameFree, htwitterFree⟩, rfl, rfl, rfl⟩

theorem insertUserId_eq_ok {userId : Option ℕ} {signpostName : Arg κ} {now : String}
    {linked : Database κ} (hok : db.insertUserId userId signpostName now = .ok linked) :
    ∃ signpostname, bindArg signpostName = .ok signpostname ∧
      ¬ Taken (db.userIds.map UserId.signpostname) signpostname ∧
      linked = { db with userIds := db.userIds ++ [⟨userId, signpostname, none, now⟩] } := by
  unfold Database.insertUserId at hok
  cases hbind : bindArg signpostName with
  | error e =>
      rw [hbind] at hok
      cases hok
  | ok signpostname =>
      simp only [hbind, bind, Except.bind] at hok
      split at hok
      next => cases hok
      next hfree =>
        obtain rfl := Except.ok.inj hok
        exact ⟨signpostname, rfl, hfree, rfl⟩

theorem linkUserUnder_eq_ok {busy : Statement → Bool} {committed linked : Database κ}
    (hok : linkUserUnder busy committed call = .ok linked) :
    linkUser committed call = .ok linked := by
  obtain ⟨entries, hselect, hrest⟩ := bind_eq_ok.mp hok
  have hinsert := eq_ok_of_commit hrest
  exact bind_eq_ok.mpr ⟨entries, (underLock_eq_ok.mp hselect).2, hinsert⟩

theorem created_createUserUnder (busy : Statement → Bool) (db : Database κ) (call : Call κ) :
    Created db call (createUserUnder busy db call) := by
  unfold createUserUnder
  split
  next e _ => exact .refused e
  next committed hcommitted =>
    obtain ⟨user, hfresh, hname, -, rfl⟩ := insertUser_eq_ok (eq_ok_of_commit hcommitted)
    split
    next e _ => exact .unlinked user e hfresh
    next linked hlinked =>
      have hlink := linkUserUnder_eq_ok hlinked
      rw [linkUser, selectUser_concat hname hfresh.name] at hlink
      obtain ⟨signpostname, hbind, hfree, rfl⟩ := insertUserId_eq_ok hlink
      refine .linked user _ signpostname hfresh (fun id hid => ?_) hbind hfree
      split at hid
      next => cases hid
      next => exact (Option.some.inj hid).symm

end

/-! ## What is kept -/

/-- The constraints of the tables, and every signpost name is one of a user. -/
structure Consistent (db : Database κ) : Prop where
  userIds : (db.users.map User.userId).Nodup
  names : (db.users.filterMap User.name).Nodup
  twitterApiIds : (db.users.filterMap User.twitterApiId).Nodup
  signpostnames : (db.userIds.filterMap UserId.signpostname).Nodup
  /-- No two signpost names have one user. -/
  links : (db.userIds.filterMap UserId.userId).Nodup
  exists_user : ∀ row ∈ db.userIds, ∀ id, row.userId = some id → ∃ user ∈ db.users, user.userId = id

section

variable {db : Database κ} {call : Call κ}

omit [DecidableEq κ] in
theorem lt_nextId {user : User κ} (hmem : user ∈ db.users) : user.userId < db.nextId := by
  have hle : ∀ ids : List ℕ, ∀ id ∈ ids, id ≤ ids.foldr max 0 := by
    intro ids
    induction ids with
    | nil => exact fun _ hid => absurd hid List.not_mem_nil
    | cons first ids ih =>
        intro id hid
        rw [List.foldr_cons]
        rcases List.mem_cons.mp hid with rfl | hlater
        · exact Nat.le_max_left _ _
        · exact Nat.le_trans (ih id hlater) (Nat.le_max_right _ _)
  exact Nat.lt_succ_of_le (hle _ _ (List.mem_map_of_mem hmem))

/-- A row whose value in a unique column is null or new. -/
theorem nodup_filterMap_concat {α β : Type} {f : α → Option β} {rows : List α} {row : α}
    (hnodup : (rows.filterMap f).Nodup) (hfree : ¬ Taken (rows.map f) (f row)) :
    ((rows ++ [row]).filterMap f).Nodup := by
  rw [List.filterMap_append]
  cases hvalue : f row with
  | none => simpa [hvalue] using hnodup
  | some v =>
      have hnew : v ∉ rows.filterMap f := by
        intro hmem
        obtain ⟨other, hother, heq⟩ := List.mem_filterMap.mp hmem
        exact hfree ⟨by simp [hvalue], List.mem_map.mpr ⟨other, hother, heq.trans hvalue.symm⟩⟩
      have hsingle : [row].filterMap f = [v] := by simp [hvalue]
      rw [hsingle, List.nodup_append]
      refine ⟨hnodup, List.nodup_singleton v, fun other hother last hlast => ?_⟩
      rw [List.mem_singleton.mp hlast]
      rintro rfl
      exact hnew hother

omit [DecidableEq κ] in
theorem Consistent.addUser {user : User κ} (hconsistent : Consistent db) (hfresh : Fresh db user) :
    Consistent { db with users := db.users ++ [user] } where
  userIds := by
    rw [List.map_append, List.map_singleton, List.nodup_append]
    refine ⟨hconsistent.userIds, List.nodup_singleton _, ?_⟩
    intro id hid other hother
    obtain ⟨known, hknown, rfl⟩ := List.mem_map.mp hid
    obtain rfl := List.mem_singleton.mp hother
    rw [hfresh.userId]
    exact Nat.ne_of_lt (lt_nextId hknown)
  names := nodup_filterMap_concat hconsistent.names hfresh.name
  twitterApiIds := nodup_filterMap_concat hconsistent.twitterApiIds hfresh.twitterApiId
  signpostnames := hconsistent.signpostnames
  links := hconsistent.links
  exists_user row hrow id hid := by
    obtain ⟨known, hknown, heq⟩ := hconsistent.exists_user row hrow id hid
    exact ⟨known, List.mem_append_left _ hknown, heq⟩

omit [DecidableEq κ] in
/-- A row of `userIds` that refers to the user who has just been added, or to nobody. -/
theorem Consistent.addUserId {user : User κ} {userId : Option ℕ} {signpostname : Option κ}
    {now : String} (hconsistent : Consistent db) (hfresh : Fresh db user)
    (huserId : ∀ id, userId = some id → id = user.userId)
    (hname : ¬ Taken (db.userIds.map UserId.signpostname) signpostname) :
    Consistent ⟨db.users ++ [user], db.userIds ++ [⟨userId, signpostname, none, now⟩]⟩ where
  userIds := (hconsistent.addUser hfresh).userIds
  names := (hconsistent.addUser hfresh).names
  twitterApiIds := (hconsistent.addUser hfresh).twitterApiIds
  signpostnames := nodup_filterMap_concat hconsistent.signpostnames hname
  links := by
    refine nodup_filterMap_concat hconsistent.links ?_
    rintro ⟨hset, hmem⟩
    obtain ⟨row, hrow, heq⟩ := List.mem_map.mp hmem
    cases hid : userId with
    | none =>
        rw [hid] at hset
        exact hset rfl
    | some id =>
        rw [hid] at heq
        obtain ⟨known, hknown, hsame⟩ := hconsistent.exists_user row hrow id heq
        have hlt := lt_nextId hknown
        rw [hsame, huserId id hid, hfresh.userId] at hlt
        exact Nat.lt_irrefl _ hlt
  exists_user row hrow id hid := by
    rcases List.mem_append.mp hrow with hold | hnew
    · exact (hconsistent.addUser hfresh).exists_user row hold id hid
    · obtain rfl := List.mem_singleton.mp hnew
      exact ⟨user, List.mem_append_right _ (List.mem_singleton_self _), (huserId id hid).symm⟩

/-- A row with a new key, if it is the one of the signpost name. -/
def updateKey (signpostname publickey : Option κ) (now : String) (row : UserId κ) : UserId κ :=
  if signpostname ≠ none ∧ row.signpostname = signpostname then
    { row with publickey, timestamp := now }
  else row

@[simp] theorem userId_updateKey (signpostname publickey : Option κ) (now : String)
    (row : UserId κ) : (updateKey signpostname publickey now row).userId = row.userId := by
  unfold updateKey
  split <;> rfl

@[simp] theorem signpostname_updateKey (signpostname publickey : Option κ) (now : String)
    (row : UserId κ) :
    (updateKey signpostname publickey now row).signpostname = row.signpostname := by
  unfold updateKey
  split <;> rfl

theorem addUserKey_eq_ok {signpostName key : Arg κ} {now : String} {updated : Database κ}
    (hok : db.addUserKey signpostName key now = .ok updated) :
    ∃ publickey signpostname, bindArg key = .ok publickey ∧
      bindArg signpostName = .ok signpostname ∧
      updated = { db with userIds := db.userIds.map (updateKey signpostname publickey now) } := by
  unfold Database.addUserKey at hok
  cases hkey : bindArg key with
  | error e =>
      rw [hkey] at hok
      cases hok
  | ok publickey =>
      cases hname : bindArg signpostName with
      | error e =>
          rw [hkey, hname] at hok
          cases hok
      | ok signpostname =>
          rw [hkey, hname] at hok
          exact ⟨publickey, signpostname, rfl, rfl, (Except.ok.inj hok).symm⟩

theorem Consistent.addUserKey {signpostName key : Arg κ} {now : String} {updated : Database κ}
    (hconsistent : Consistent db) (hok : db.addUserKey signpostName key now = .ok updated) :
    Consistent updated := by
  obtain ⟨publickey, signpostname, -, -, rfl⟩ := addUserKey_eq_ok hok
  have hnames : (db.userIds.map (updateKey signpostname publickey now)).filterMap
      UserId.signpostname = db.userIds.filterMap UserId.signpostname := by
    rw [List.filterMap_map]
    exact List.filterMap_congr fun row _ => signpostname_updateKey ..
  have hlinks : (db.userIds.map (updateKey signpostname publickey now)).filterMap
      UserId.userId = db.userIds.filterMap UserId.userId := by
    rw [List.filterMap_map]
    exact List.filterMap_congr fun row _ => userId_updateKey ..
  refine ⟨hconsistent.userIds, hconsistent.names, hconsistent.twitterApiIds, ?_, ?_, ?_⟩
  · rw [hnames]
    exact hconsistent.signpostnames
  · rw [hlinks]
    exact hconsistent.links
  · intro row hrow id hid
    obtain ⟨old, hold, rfl⟩ := List.mem_map.mp hrow
    exact hconsistent.exists_user old hold id (by rwa [userId_updateKey] at hid)

end

/-! ## The keys that are known -/

def Database.knownKey (db : Database κ) (name : κ) : Option (Option κ) :=
  (db.userIds.find? fun row => row.signpostname = some name).map UserId.publickey

section

variable {db : Database κ} {call : Call κ} {name : κ}

omit [DecidableEq κ] in
theorem eq_value_iff {arg : Arg κ} {value : Option κ} (hbind : bindArg arg = .ok value) :
    arg = .value name ↔ value = some name := by
  cases arg with
  | unsupported => cases hbind
  | null =>
      cases hbind
      simp
  | value v =>
      cases hbind
      simp

theorem getKeyFromUser_value (db : Database κ) (name : κ) :
    db.getKeyFromUser (.value name) = .ok (db.knownKey name) := by
  simp [Database.getKeyFromUser, Database.knownKey, bindArg, bind, Except.bind, pure, Except.pure]

/-- A row for the name, or for another one or none. -/
theorem knownKey_concat {users : List (User κ)} {row : UserId κ}
    (hname : ¬ Taken (db.userIds.map UserId.signpostname) row.signpostname) :
    Database.knownKey ⟨users, db.userIds ++ [row]⟩ name =
      if row.signpostname = some name then some row.publickey else db.knownKey name := by
  unfold Database.knownKey
  rw [List.find?_append]
  split
  -- the constraint on the column has let in the first row for the name
  next heq =>
    have hnone : db.userIds.find? (fun row => row.signpostname = some name) = none := by
      rw [List.find?_eq_none]
      intro other hother hsame
      exact hname ⟨by simp [heq], List.mem_map.mpr
        ⟨other, hother, (of_decide_eq_true hsame).trans heq.symm⟩⟩
    simp [hnone, heq]
  next hne => simp [hne]

theorem knownKey_updateKey (signpostname publickey : Option κ) (now : String) :
    Database.knownKey { db with
        userIds := db.userIds.map (updateKey signpostname publickey now) } name =
      if signpostname = some name then (db.knownKey name).bind fun _ => some publickey
      else db.knownKey name := by
  have hfind : (db.userIds.map (updateKey signpostname publickey now)).find?
      (fun row => row.signpostname = some name) =
        (db.userIds.find? fun row => row.signpostname = some name).map
          (updateKey signpostname publickey now) := by
    rw [List.find?_map]
    simp only [Function.comp_def, signpostname_updateKey]
  unfold Database.knownKey
  rw [hfind]
  cases hrow : db.userIds.find? fun row => row.signpostname = some name with
  | none => simp
  | some row =>
      have hname : row.signpostname = some name := by simpa using List.find?_some hrow
      by_cases heq : signpostname = some name
      · simp [updateKey, heq, hname]
      · simp [updateKey, heq, hname, Ne.symm heq]

theorem knownKey_step {next : Database κ} {command : Command κ} {output : Except SqlError Unit}
    (hstep : perform db command = .ok (next, output)) :
    next.knownKey name = keyAfter name (db.knownKey name) ⟨db, command, output, next⟩ := by
  cases command with
  | createUser call busy =>
      have hcreated := created_createUserUnder busy db call
      rw [Except.ok.inj hstep] at hcreated
      cases hcreated with
      | refused e => rfl
      | unlinked user e huser => rfl
      | linked user userId signpostname huser huserId hbind hname =>
          rw [knownKey_concat hname]
          simp only [keyAfter, eq_value_iff hbind]
  | addUserKey signpostName key now busy =>
      simp only [perform] at hstep
      split at hstep
      next updated hcommit =>
        have hok := eq_ok_of_commit hcommit
        obtain ⟨rfl, rfl⟩ := Prod.mk.inj (Except.ok.inj hstep)
        obtain ⟨publickey, signpostname, hkey, hname, rfl⟩ := addUserKey_eq_ok hok
        rw [knownKey_updateKey]
        simp only [keyAfter, eq_value_iff hname, hkey]
        rfl
      next =>
        obtain ⟨rfl, rfl⟩ := Prod.mk.inj (Except.ok.inj hstep)
        rfl

end

/-! ## Every address book -/

theorem consistent_step {db next : Database κ} {command : Command κ}
    {output : Except SqlError Unit} (hconsistent : Consistent db)
    (hstep : perform db command = .ok (next, output)) : Consistent next := by
  cases command with
  | createUser call busy =>
      have hcreated := created_createUserUnder busy db call
      rw [Except.ok.inj hstep] at hcreated
      cases hcreated with
      | refused e => exact hconsistent
      | unlinked user e huser => exact hconsistent.addUser huser
      | linked user userId signpostname huser huserId hbind hname =>
          exact hconsistent.addUserId huser huserId hname
  | addUserKey signpostName key now busy =>
      simp only [perform] at hstep
      split at hstep
      next updated hcommit =>
        have hok := eq_ok_of_commit hcommit
        obtain ⟨rfl, -⟩ := Prod.mk.inj (Except.ok.inj hstep)
        exact hconsistent.addUserKey hok
      next =>
        obtain ⟨rfl, -⟩ := Prod.mk.inj (Except.ok.inj hstep)
        exact hconsistent

/-- Whatever is created and stored, and whichever statement fails: the tables keep their
constraints, every signpost name that refers to a user refers to one that there is, and the
key of a signpost name is the one that has been stored last. -/
theorem addressBook_of_run {steps : List (CommandStep κ)} {db : Database κ}
    (hrun : Run perform Database.empty steps db) :
    Consistent db ∧ ∀ name, db.getKeyFromUser (.value name) = .ok (latestKey name steps) := by
  simp only [getKeyFromUser_value, Except.ok.injEq]
  induction hrun with
  | start =>
      refine ⟨?_, fun _ => rfl⟩
      constructor <;> simp [Database.empty]
  | extend prior hstep ih =>
      refine ⟨consistent_step ih.1 hstep, fun name => ?_⟩
      rw [latestKey, List.foldl_append, ← latestKey, ← ih.2 name]
      exact knownKey_step hstep

def storeKey (busy : Statement → Bool) : Command ℕ :=
  .addUserKey (.value 10) (.value 7) "2012-06-01 10:10:1338545400" busy

/-- The name of the second user's signpost is taken, and the key is stored at the second try. -/
def aliceCommands : List (Command ℕ) :=
  [.createUser createAlice fun _ => false, .createUser createBob fun _ => false,
    storeKey (· = .commitKey), storeKey fun _ => false]

theorem addressBook_of_run_alice :
    (record perform Database.empty aliceCommands).map (fun step => step.output) =
        [.ok (), .error .integrityError, .error .operationalError, .ok ()] ∧
      Consistent (final perform Database.empty aliceCommands) ∧
      ∀ name, (final perform Database.empty aliceCommands).getKeyFromUser (.value name) =
        .ok (latestKey name (record perform Database.empty aliceCommands)) :=
  ⟨by decide, addressBook_of_run (run_record perform Database.empty aliceCommands)⟩

end Signpost.SqliteController
