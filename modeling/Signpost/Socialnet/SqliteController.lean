import Signpost.Machine.Run

/-! # Creating users

A user has a row in two tables of a database. Creating one writes to the first
table, commits, and then writes to the second one.
-/

namespace Signpost.SqliteController

open Machine

variable {κ : Type} [DecidableEq κ]

/-! ## Tables -/

/-- A row of `users`. Its identifier is the primary key, the others are unique. -/
structure User (κ : Type) where
  userId : ℕ
  name : Option κ
  twitterApiId : Option κ
deriving DecidableEq

/-- A row of `userIds`. The primary key is the signpost name, which SQLite lets
be null. -/
structure UserId (κ : Type) where
  userId : Option ℕ
  signpostname : Option κ
  publickey : Option κ
  timestamp : String
deriving DecidableEq

structure Database (κ : Type) where
  users : List (User κ)
  userIds : List (UserId κ)
deriving DecidableEq

def Database.empty : Database κ := ⟨[], []⟩

/-- A Python value as a parameter of a statement: it cannot be bound, is bound to
null, or to a value, with the affinity of its column. -/
inductive Arg (κ : Type)
  | unsupported
  | null
  | value (v : κ)
deriving DecidableEq

/-- An `OperationalError` is raised when the database stays locked. -/
inductive SqlError
  | interfaceError
  | integrityError
  | operationalError
deriving DecidableEq

def bindArg : Arg κ → Except SqlError (Option κ)
  | .unsupported => .error .interfaceError
  | .null => .ok none
  | .value v => .ok (some v)

/-- A unique column has the value already. Nulls are all different. -/
def Taken (column : List (Option κ)) (value : Option κ) : Prop := value ≠ none ∧ value ∈ column

instance (column : List (Option κ)) (value : Option κ) : Decidable (Taken column value) :=
  inferInstanceAs (Decidable (_ ∧ _))

namespace Database

variable (db : Database κ)

/-- One more than the largest identifier. -/
def nextId : ℕ := (db.users.map User.userId).foldr max 0 + 1

/-- `insert into users values (null, ?, ?)`. -/
def insertUser (username userId : Arg κ) : Except SqlError (Database κ) := do
  let name ← bindArg username
  let twitterApiId ← bindArg userId
  if Taken (db.users.map User.name) name then .error .integrityError
  else if Taken (db.users.map User.twitterApiId) twitterApiId then .error .integrityError
  else .ok { db with users := db.users ++ [⟨db.nextId, name, twitterApiId⟩] }

/-- `select * from users where name=?`, and its first row. -/
def selectUser (username : Arg κ) : Except SqlError (Option (User κ)) := do
  let name ← bindArg username
  return db.users.find? fun user => name ≠ none ∧ user.name = name

/-- `insert into userIds values (?, ?, ?, ?)`. -/
def insertUserId (userId : Option ℕ) (signpostName : Arg κ) (now : String) :
    Except SqlError (Database κ) := do
  let signpostname ← bindArg signpostName
  if Taken (db.userIds.map UserId.signpostname) signpostname then .error .integrityError
  else .ok { db with userIds := db.userIds ++ [⟨userId, signpostname, none, now⟩] }

end Database

/-! ## Creating a user -/

structure Call (κ : Type) where
  username : Arg κ
  signpostName : Arg κ
  userId : Arg κ
  now : String
deriving DecidableEq

/-- The second commit, after which the call returns. -/
def linkUser (committed : Database κ) (call : Call κ) : Except SqlError (Database κ) := do
  let entries ← committed.selectUser call.username
  committed.insertUserId (entries.map User.userId) call.signpostName call.now

/-- What is committed when the call ends, and how it ends. What a failed call has
not committed is undone. -/
def createUser (db : Database κ) (call : Call κ) : Database κ × Except SqlError Unit :=
  match db.insertUser call.username call.userId with
  | .error e => (db, .error e)
  | .ok committed =>
      match linkUser committed call with
      | .error e => (committed, .error e)
      | .ok linked => (linked, .ok ())

/-- Every call ends, in one way or the other. -/
def step (db : Database κ) (call : Call κ) :
    Except Empty (Database κ × Except SqlError Unit) :=
  .ok (createUser db call)

/-! ## Atomicity -/

/-- Both tables have one more row, and the one refers to the other, or the call
raises and the tables are as they were. -/
def Atomic (transition : Transition (Database κ) (Call κ) (Except SqlError Unit)) : Prop :=
  (transition.output = .ok () ∧ ∃ user link,
    transition.after =
      ⟨transition.before.users ++ [user], transition.before.userIds ++ [link]⟩ ∧
    link.userId = some user.userId) ∨
  ∃ e, transition.output = .error e ∧ transition.after = transition.before

/-- A unique column has the value of an argument. -/
def TakenArg (column : List (Option κ)) (arg : Arg κ) : Prop :=
  ∃ v, arg = .value v ∧ some v ∈ column

/-- The first table refuses the user. -/
def Refused (db : Database κ) (call : Call κ) : Prop :=
  call.username = .unsupported ∨ call.userId = .unsupported ∨
    TakenArg (db.users.map User.name) call.username ∨
    TakenArg (db.users.map User.twitterApiId) call.userId

/-- The user can be found by name, and the second table takes the signpost name. -/
def Linkable (db : Database κ) (call : Call κ) : Prop :=
  call.username ≠ .null ∧ call.signpostName ≠ .unsupported ∧
    ¬ TakenArg (db.userIds.map UserId.signpostname) call.signpostName

/-! ## Statements -/

section

variable {db : Database κ} {call : Call κ} {column : List (Option κ)} {arg : Arg κ}
  {value : Option κ}

omit [DecidableEq κ] in
theorem takenArg_iff (hbind : bindArg arg = .ok value) :
    TakenArg column arg ↔ Taken column value := by
  cases arg with
  | unsupported => cases hbind
  | null =>
      cases hbind
      simp [TakenArg, Taken]
  | value v =>
      cases hbind
      simp [TakenArg, Taken]

omit [DecidableEq κ] in
theorem bindArg_cases (arg : Arg κ) :
    (arg = .unsupported ∧ bindArg arg = .error .interfaceError) ∨
      arg ≠ .unsupported ∧ ∃ value, bindArg arg = .ok value := by
  cases arg with
  | unsupported => exact .inl ⟨rfl, rfl⟩
  | null => exact .inr ⟨nofun, _, rfl⟩
  | value v => exact .inr ⟨nofun, _, rfl⟩

/-- The first insertion raises when it is refused, and adds a row otherwise. -/
theorem insertUser_cases (db : Database κ) (call : Call κ) :
    (Refused db call ∧ ∃ e, db.insertUser call.username call.userId = .error e) ∨
      ¬ Refused db call ∧ ∃ name twitterApiId, bindArg call.username = .ok name ∧
        ¬ Taken (db.users.map User.name) name ∧
        db.insertUser call.username call.userId =
          .ok { db with users := db.users ++ [⟨db.nextId, name, twitterApiId⟩] } := by
  rcases bindArg_cases call.username with ⟨husername, hbind⟩ | ⟨husername, name, hname⟩
  · exact .inl ⟨.inl husername, _, by rw [Database.insertUser, hbind]; rfl⟩
  rcases bindArg_cases call.userId with ⟨huserId, hbind⟩ | ⟨huserId, twitterApiId, htwitter⟩
  · exact .inl ⟨.inr (.inl huserId), _, by rw [Database.insertUser, hname, hbind]; rfl⟩
  have hinsert : db.insertUser call.username call.userId =
      if Taken (db.users.map User.name) name then .error .integrityError
      else if Taken (db.users.map User.twitterApiId) twitterApiId then .error .integrityError
      else .ok { db with users := db.users ++ [⟨db.nextId, name, twitterApiId⟩] } := by
    rw [Database.insertUser, hname, htwitter]
    rfl
  simp only [Refused, husername, huserId, takenArg_iff hname, takenArg_iff htwitter, false_or,
    hinsert]
  by_cases hnameTaken : Taken (db.users.map User.name) name
  · exact .inl ⟨.inl hnameTaken, _, if_pos hnameTaken⟩
  by_cases htwitterTaken : Taken (db.users.map User.twitterApiId) twitterApiId
  · exact .inl ⟨.inr htwitterTaken, _, by rw [if_neg hnameTaken, if_pos htwitterTaken]⟩
  · refine .inr ⟨by simp [hnameTaken, htwitterTaken], name, twitterApiId, hname, hnameTaken, ?_⟩
    rw [if_neg hnameTaken, if_neg htwitterTaken]

/-- A name that was not taken is found in the row that has just been added, and
null is not found at all. -/
theorem selectUser_concat {user : User κ} (hbind : bindArg call.username = .ok user.name)
    (hname : ¬ Taken (db.users.map User.name) user.name) :
    ({ db with users := db.users ++ [user] } : Database κ).selectUser call.username =
      .ok (if call.username = .null then none else some user) := by
  have hselect :
      ({ db with users := db.users ++ [user] } : Database κ).selectUser call.username =
        .ok ((db.users ++ [user]).find? fun other =>
          user.name ≠ none ∧ other.name = user.name) := by
    rw [Database.selectUser, hbind]
    rfl
  rw [hselect]
  cases husername : call.username with
  | unsupported =>
      rw [husername] at hbind
      cases hbind
  | null =>
      rw [husername] at hbind
      have hnull : user.name = none := (Except.ok.inj hbind).symm
      simp [hnull]
  | value v =>
      rw [husername] at hbind
      have hvalue : user.name = some v := (Except.ok.inj hbind).symm
      have holder : ∀ other ∈ db.users, other.name ≠ some v := by
        intro other hother heq
        exact hname ⟨by simp [hvalue], List.mem_map.mpr ⟨other, hother, heq.trans hvalue.symm⟩⟩
      have hnone : db.users.find? (fun other => other.name = some v) = none := by
        simpa using holder
      simp [hvalue, hnone, List.find?_append]

/-- The second insertion raises on a signpost name that is unsupported or taken. -/
theorem insertUserId_cases (db : Database κ) (userId : Option ℕ) (signpostName : Arg κ)
    (now : String) :
    ((signpostName = .unsupported ∨ TakenArg (db.userIds.map UserId.signpostname) signpostName) ∧
      ∃ e, db.insertUserId userId signpostName now = .error e) ∨
    (signpostName ≠ .unsupported ∧
      ¬ TakenArg (db.userIds.map UserId.signpostname) signpostName) ∧
      ∃ signpostname, db.insertUserId userId signpostName now =
        .ok { db with userIds := db.userIds ++ [⟨userId, signpostname, none, now⟩] } := by
  rcases bindArg_cases signpostName with ⟨hname, hbind⟩ | ⟨hname, signpostname, hbind⟩
  · exact .inl ⟨.inl hname, _, by rw [Database.insertUserId, hbind]; rfl⟩
  have hinsert : db.insertUserId userId signpostName now =
      if Taken (db.userIds.map UserId.signpostname) signpostname then .error .integrityError
      else .ok { db with userIds := db.userIds ++ [⟨userId, signpostname, none, now⟩] } := by
    rw [Database.insertUserId, hbind]
    rfl
  rw [hinsert, takenArg_iff hbind]
  by_cases htaken : Taken (db.userIds.map UserId.signpostname) signpostname
  · exact .inl ⟨.inr htaken, _, if_pos htaken⟩
  · exact .inr ⟨⟨hname, htaken⟩, signpostname, if_neg htaken⟩

/-! ## Which calls are atomic -/

theorem createUser_of_refused {e : SqlError}
    (hinsert : db.insertUser call.username call.userId = .error e) :
    createUser db call = (db, .error e) := by
  rw [createUser, hinsert]

/-- What is left of a user who is inserted: nothing more, or a row that refers to
it, or to nothing. -/
theorem createUser_of_inserted (user : User κ) (hbind : bindArg call.username = .ok user.name)
    (hname : ¬ Taken (db.users.map User.name) user.name)
    (hinsert : db.insertUser call.username call.userId =
      .ok { db with users := db.users ++ [user] }) :
    ((call.signpostName = .unsupported ∨
        TakenArg (db.userIds.map UserId.signpostname) call.signpostName) ∧
      ∃ e, createUser db call = ({ db with users := db.users ++ [user] }, .error e)) ∨
    (call.signpostName ≠ .unsupported ∧
      ¬ TakenArg (db.userIds.map UserId.signpostname) call.signpostName) ∧
      ∃ link, link.userId = (if call.username = .null then none else some user.userId) ∧
        createUser db call = (⟨db.users ++ [user], db.userIds ++ [link]⟩, .ok ()) := by
  have hlink : linkUser { db with users := db.users ++ [user] } call =
      ({ db with users := db.users ++ [user] } : Database κ).insertUserId
        (if call.username = .null then none else some user.userId)
        call.signpostName call.now := by
    rw [linkUser, selectUser_concat hbind hname]
    by_cases hnull : call.username = .null
    · simp only [if_pos hnull]
      rfl
    · simp only [if_neg hnull]
      rfl
  generalize (if call.username = .null then none else some user.userId) = userId at hlink ⊢
  rcases insertUserId_cases { db with users := db.users ++ [user] } userId call.signpostName
      call.now with ⟨hrefused, e, hraised⟩ | ⟨htaken, signpostname, hok⟩
  · refine .inl ⟨hrefused, e, ?_⟩
    simp only [createUser, hinsert, hlink, hraised]
  · refine .inr ⟨htaken, ⟨userId, signpostname, none, call.now⟩, rfl, ?_⟩
    simp only [createUser, hinsert, hlink, hok]

theorem atomic_createUser_iff (db : Database κ) (call : Call κ) :
    Atomic ⟨db, call, (createUser db call).2, (createUser db call).1⟩ ↔
      Refused db call ∨ Linkable db call := by
  rcases insertUser_cases db call with
    ⟨hrefused, e, hraised⟩ | ⟨hrefused, name, twitterApiId, hbind, hname, hinsert⟩
  · rw [createUser_of_refused hraised]
    exact iff_of_true (.inr ⟨e, rfl, rfl⟩) (.inl hrefused)
  · rcases createUser_of_inserted ⟨db.nextId, name, twitterApiId⟩ hbind hname hinsert with
      ⟨hunlinked, e, hcreate⟩ | ⟨hlinkable, link, huserId, hcreate⟩
    · rw [hcreate]
      refine iff_of_false ?_ ?_
      · -- the user stays although the call has raised
        rintro (⟨hok, _⟩ | ⟨_, _, hsame⟩)
        · cases hok
        · have husers := congrArg Database.users hsame
          simp at husers
      · rintro (hother | ⟨_, hsupported, htaken⟩)
        · exact hrefused hother
        · exact hunlinked.elim hsupported htaken
    · rw [hcreate]
      by_cases hnull : call.username = .null
      · refine iff_of_false ?_ ?_
        · rintro (⟨_, user, other, hafter, hother⟩ | ⟨_, hraised, _⟩)
          · have hlinks := List.append_cancel_left (congrArg Database.userIds hafter)
            obtain rfl := List.singleton_inj.mp hlinks
            rw [huserId, if_pos hnull] at hother
            cases hother
          · cases hraised
        · rintro (hother | ⟨hnotNull, _⟩)
          · exact hrefused hother
          · exact hnotNull hnull
      · refine iff_of_true (.inl ⟨rfl, _, link, rfl, ?_⟩) (.inr ⟨hnull, hlinkable⟩)
        rw [huserId, if_neg hnull]

/-- All calls of a run are atomic exactly when each is refused by the first table,
or has a user name and a signpost name that the second table takes. -/
theorem atomic_iff (calls : List (Call κ)) :
    (∀ transition ∈ record step Database.empty calls, Atomic transition) ↔
      ∀ transition ∈ record step Database.empty calls,
        Refused transition.before transition.input ∨
          Linkable transition.before transition.input := by
  refine forall₂_congr fun transition hmem => ?_
  have hstep := (run_record step Database.empty calls).step_eq hmem
  rw [step, Except.ok.injEq] at hstep
  have hatomic := atomic_createUser_iff transition.before transition.input
  rwa [hstep] at hatomic

end

/-! ## Two users of one signpost -/

def createAlice : Call ℕ := ⟨.value 1, .value 10, .value 100, "2012-06-01 10:00:1338544800"⟩

/-- Another user with the signpost name of the first. -/
def createBob : Call ℕ := ⟨.value 2, .value 10, .value 200, "2012-06-01 10:05:1338545100"⟩

example : (createUser (createUser .empty createAlice).1 createBob).1.users.length = 2 := by decide

theorem not_atomic_createBob :
    ¬ ∀ calls : List (Call ℕ), ∀ transition ∈ record step Database.empty calls,
      Atomic transition := by
  intro hclaim
  have hbob := hclaim [createAlice, createBob]
    ⟨(createUser .empty createAlice).1, createBob, .error .integrityError,
      (createUser (createUser .empty createAlice).1 createBob).1⟩
    (List.mem_cons_of_mem _ List.mem_cons_self)
  rcases hbob with ⟨hok, _⟩ | ⟨_, _, hsame⟩
  · cases hok
  · exact absurd hsame (by decide)

end Signpost.SqliteController
