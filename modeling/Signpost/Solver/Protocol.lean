import Signpost.Bloom.Collection

/-! # Messages and rows of the tactic protocol

The rows exchanged between tactics, questions and the solver, and the rows of
the solver's own collections. Truth values are JSON values that the solver
never inspects; they are a type parameter.
-/

namespace Signpost

/-- The key columns of every collection of truths. -/
structure TruthKey where
  what : String
  provider : String
  userInfo : String
  signpost : String
deriving DecidableEq, Repr

/-- The key columns of every collection of needs, observers and subscribers. -/
structure SubscriptionKey where
  what : String
  who : String
  signpost : String
deriving DecidableEq, Repr

/-- A row of `need_truth_scratch`, `observe_truth_scratch` and
`truth_subscribers`, which share one schema. -/
structure Subscription where
  what : String
  who : String
  signpost : String
  userInfo : String
  whoName : String
deriving DecidableEq, Repr

def Subscription.key (row : Subscription) : SubscriptionKey := ⟨row.what, row.who, row.signpost⟩

/-- A truth as it is sent on `needed_truth`. -/
structure Fact (α : Type) where
  what : String
  provider : String
  userInfo : String
  signpost : String
  truth : α
deriving DecidableEq, Repr

/-- A row of `provide_truth_scratch`. A tactic script may leave the TTL out,
which arrives as `nil`. -/
structure Provision (α : Type) where
  what : String
  provider : String
  userInfo : String
  signpost : String
  truth : α
  ttl : Option Int
deriving DecidableEq, Repr

/-- How long a row of the truth table stays valid. -/
inductive TtlState
  | nonCacheable
  | cacheable (ttl expires : Int)
deriving DecidableEq, Repr

/-- A row of `truths` and of `storable_truths`. -/
structure TruthRow (α : Type) where
  what : String
  provider : String
  userInfo : String
  signpost : String
  truth : α
  ttlState : TtlState
deriving DecidableEq, Repr

/-- The key columns of `satisfiable_truth_needs`. -/
structure SatisfiableKey where
  who : String
  what : String
  userInfo : String
  signpost : String
deriving DecidableEq, Repr

/-- A row of `satisfiable_truth_needs`. The user is the requester's, the
signpost the truth's. -/
structure SatisfiableNeed (α : Type) where
  who : String
  what : String
  userInfo : String
  signpost : String
  truth : Fact α
deriving DecidableEq, Repr

/-- The key columns of `adapted_provided_truths`. -/
structure AdaptedKey where
  what : String
  originalWhat : String
  provider : String
  userInfo : String
  signpost : String
deriving DecidableEq, Repr

/-- A row of `adapted_provided_truths`: a new truth under the name
`RESOURCE@ANY`. -/
structure AdaptedTruth (α : Type) where
  what : String
  originalWhat : String
  provider : String
  userInfo : String
  signpost : String
  truth : α
deriving DecidableEq, Repr

variable {α : Type}

def Fact.key (fact : Fact α) : TruthKey :=
  ⟨fact.what, fact.provider, fact.userInfo, fact.signpost⟩

def Provision.key (row : Provision α) : TruthKey :=
  ⟨row.what, row.provider, row.userInfo, row.signpost⟩

def TruthRow.key (row : TruthRow α) : TruthKey :=
  ⟨row.what, row.provider, row.userInfo, row.signpost⟩

def SatisfiableNeed.key (row : SatisfiableNeed α) : SatisfiableKey :=
  ⟨row.who, row.what, row.userInfo, row.signpost⟩

def AdaptedTruth.key (row : AdaptedTruth α) : AdaptedKey :=
  ⟨row.what, row.originalWhat, row.provider, row.userInfo, row.signpost⟩

/-- A provided truth without its TTL, as it is pushed to subscribers. -/
def Provision.fact (row : Provision α) : Fact α :=
  ⟨row.what, row.provider, row.userInfo, row.signpost, row.truth⟩

/-- A stored truth without its TTL state, as it is returned from the cache. -/
def TruthRow.fact (row : TruthRow α) : Fact α :=
  ⟨row.what, row.provider, row.userInfo, row.signpost, row.truth⟩

/-- The name under which `RESOURCE@ANY` subscribers receive an adapted truth
is the original one. -/
def AdaptedTruth.fact (row : AdaptedTruth α) : Fact α :=
  ⟨row.originalWhat, row.provider, row.userInfo, row.signpost, row.truth⟩

@[simp] theorem Provision.key_fact (row : Provision α) : row.fact.key = row.key := rfl

@[simp] theorem TruthRow.key_fact (row : TruthRow α) : row.fact.key = row.key := rfl

end Signpost
