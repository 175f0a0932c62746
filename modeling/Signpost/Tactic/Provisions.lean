import Signpost.Solver.KeyConstraints
import Signpost.Tactic.Tactic

/-! # What a solver makes of provided truths

The TTL of a truth is what the script sent. Neither the `Tactic` object nor the
solver looks at it before the solver calculates with it.
-/

namespace Signpost.Provisions

open Bloom Solver

variable {α : Type}

/-! ## Processing a provision -/

/-- The subscriber asked for the truth, under its name or as `RESOURCE@ANY`. -/
def Wants (subscriber : Subscription) (row : Provision α) : Prop :=
  row.what = subscriber.what ∧ Visible row.userInfo subscriber.userInfo ∨
    subscriber.what = alternativeWhat row.what ∧
      AcceptsSignpost subscriber.signpost row.signpost

/-- The TTL is a positive number. -/
def Storable (row : Provision α) : Prop := ∃ ttl, row.ttl = some ttl ∧ 0 < ttl

/-- The table has the truth with a lifetime that begins now. -/
def Stored (now : Int) (truths : Collection (@TruthRow.key α)) (row : Provision α) : Prop :=
  ∃ truth ∈ truths, storedRow now row = some truth

/-- The timestep completes, and it delivers the truth to everybody who asked for
it. It stores the truth if the TTL is a positive number, and otherwise leaves
nothing under its key that was not there before. -/
structure Processed [DecidableEq α] (name : String) (state : State α) (batch : Batch α)
    (row : Provision α) (next : State α) (output : Output α) : Prop where
  completes : timestep name state batch = .ok (next, output)
  delivered : ∀ subscriber ∈ state.truthSubscribers, Wants subscriber row →
    (subscriber.who, row.fact) ∈ output.neededTruth
  stored : Storable row → Stored batch.now next.truths row
  not_stored : ¬ Storable row → ∀ truth ∈ next.truths, truth.key = row.key →
    truth ∈ state.truths

theorem storedRow_ne_none_iff (now : Int) {row : Provision α} :
    storedRow now row ≠ none ↔ Storable row := by
  unfold storedRow Storable
  cases row.ttl with
  | none => simp
  | some ttl => by_cases hpos : 0 < ttl <;> simp [hpos]

variable [DecidableEq α]

theorem processed_of_timestep {name : String} {state next : State α} {batch : Batch α}
    {output : Output α} {row : Provision α} (hrow : row ∈ batch.provided)
    (hstep : timestep name state batch = .ok (next, output)) :
    Processed name state batch row next output := by
  have hfires := fires_of_timestep hstep
  constructor
  case completes => exact hstep
  case delivered =>
    intro subscriber hsubscriber hwants
    rw [Output.neededTruth, List.mem_append, List.mem_append, hfires.mem_pushed,
      hfires.mem_pushedAny]
    rcases hwants with ⟨hwhat, hvisible⟩ | ⟨hwhat, haccepts⟩
    · exact .inr (.inl ⟨row, hrow, subscriber, hsubscriber, hwhat, hvisible, rfl, rfl⟩)
    · exact .inr (.inr ⟨row, hrow, subscriber, hsubscriber, hwhat, haccepts, rfl, rfl⟩)
  case stored =>
    intro hstorable
    obtain ⟨truth, htruth⟩ := Option.ne_none_iff_exists'.mp
      ((storedRow_ne_none_iff batch.now).mpr hstorable)
    refine ⟨truth, (hfires.mem_truths truth).mpr (.inl ?_), htruth⟩
    exact List.mem_filterMap.mpr ⟨row, hrow, htruth⟩
  case not_stored =>
    intro hnot truth htruth hkey
    rcases (hfires.mem_truths truth).mp htruth with hnew | ⟨hold, _⟩
    · obtain ⟨other, hother, hstored⟩ := List.mem_filterMap.mp hnew
      -- another provision of the key would be the same one
      obtain rfl : other = row := hfires.keys_functional.provided other hother row hrow
        ((key_of_storedRow hstored).symm.trans hkey)
      exact absurd ((storedRow_ne_none_iff batch.now).mp
        (Option.ne_none_iff_exists'.mpr ⟨truth, hstored⟩)) hnot
    · exact hold

/-- A timestep completes exactly when every truth that it takes in has a TTL and
its rows determine one row per key. -/
theorem timestep_completes_iff (name : String) (state : State α) (batch : Batch α) :
    (∃ next output, timestep name state batch = .ok (next, output)) ↔
      KeysDetermined state batch ∧ ∀ row ∈ batch.provided, row.ttl ≠ none := by
  rw [keysDetermined_iff]
  constructor
  · rintro ⟨next, output, hstep⟩
    exact ⟨(fires_of_timestep hstep).keys_functional, (fires_of_timestep hstep).ttl_ne_none⟩
  · rintro ⟨hkeys, hpresent⟩
    cases hstep : timestep name state batch with
    | ok result => exact ⟨result.1, result.2, rfl⟩
    | error error =>
        cases hscratches : deriveScratches state batch with
        | error error => exact absurd hkeys (not_keysFunctional_of_error hscratches).1
        | ok scratches =>
            obtain ⟨_, row, hrow, httl⟩ := typeError_of_timestep hscratches hstep
            exact absurd httl (hpresent row hrow)

/-- The row is a truth of a script's message, taken in by the timestep. -/
structure TakenIn (tactic : Tactic) (data : ScriptData α) (batch : Batch α) (row : Provision α) :
    Prop where
  provided : .provideTruth row ∈ tactic.dealWith data
  arrived : row ∈ batch.provideTruth

/-- A truth that a script provides is processed in the timestep that takes it in
exactly when every truth taken in has a TTL and the rows determine one row per
key. -/
theorem processed_iff {tactic : Tactic} {data : ScriptData α} {batch : Batch α}
    {row : Provision α} (htaken : TakenIn tactic data batch row) (name : String)
    (state : State α) :
    (∃ next output, Processed name state batch row next output) ↔
      KeysDetermined state batch ∧ ∀ other ∈ batch.provided, other.ttl ≠ none := by
  rw [← timestep_completes_iff name state batch]
  have hrow : row ∈ batch.provided := List.mem_append_right _ htaken.arrived
  constructor
  · rintro ⟨next, output, hprocessed⟩
    exact ⟨next, output, hprocessed.completes⟩
  · rintro ⟨next, output, hstep⟩
    exact ⟨next, output, processed_of_timestep hrow hstep⟩

/-! ## The DNS tactic -/

/-- An address record of an answer. -/
structure Answer where
  ip : String
  ttl : Option Int
deriving DecidableEq, Repr

/-- The smaller of the TTLs so far, of which there may be none. -/
def minTtl (least : Option Int) (answer : Answer) : Option Int :=
  match answer.ttl, least with
  | none, least => least
  | some ttl, none => some ttl
  | some ttl, some least => some (if ttl < least then ttl else least)

/-- `DNSResolve.resolve`, on the answers of the resolver. -/
def resolve (answers : List Answer) : Option Int × List String :=
  (answers.foldl minTtl none, (answers.map Answer.ip).eraseDups)

/-- What the DNS tactic provides for its own `what`. -/
def dnsData (ofAddresses : List String → α) (what : String) (answers : List Answer) :
    ScriptData α :=
  let (ttl, ips) := resolve answers
  { provideTruths := [⟨what, ofAddresses ips, ttl, true⟩] }

/-! ## An answer, and none -/

def dns : Tactic := { name := "dns", userInfo := "carol", nodeName := "alpha", ipPort := "" }

/-- The row that a solver gets for the answer of a resolver. -/
def addressRow (answers : List Answer) : Provision (List String) :=
  ⟨"ip_address@kle.io", "dns", "GLOBAL", "alpha", (resolve answers).2, (resolve answers).1⟩

def addressBatch (answers : List Answer) : Batch (List String) where
  provideTruth := [addressRow answers]
  now := 10

theorem takenIn_addressBatch (answers : List Answer) :
    TakenIn dns (dnsData id "ip_address@kle.io" answers) (addressBatch answers)
      (addressRow answers) := by
  have hname : dealWithMagic "ip_address@kle.io" "alpha" = "ip_address@kle.io" := by decide
  refine ⟨?_, List.mem_singleton_self _⟩
  simp [Tactic.dealWith, dnsData, Tactic.addTruth, hname, addressRow, dns]

/-- A record that may be kept for a minute. -/
theorem processed_iff_of_record :
    (∃ next output, Processed "alpha" ⟨Collection.empty, Collection.empty⟩
        (addressBatch [⟨"10.0.0.1", some 60⟩]) (addressRow [⟨"10.0.0.1", some 60⟩]) next output) ↔
      KeysDetermined ⟨Collection.empty, Collection.empty⟩ (addressBatch [⟨"10.0.0.1", some 60⟩]) ∧
        ∀ other ∈ (addressBatch [⟨"10.0.0.1", some 60⟩]).provided, other.ttl ≠ none :=
  processed_iff (takenIn_addressBatch [⟨"10.0.0.1", some 60⟩]) _ _

/-- An answer without records stops the solver. -/
theorem not_processed_of_empty_answer :
    ¬ ∀ (tactic : Tactic) (data : ScriptData (List String)) (batch : Batch (List String))
      (row : Provision (List String)), TakenIn tactic data batch row →
        ∀ (name : String) (state : State (List String)),
          ∃ next output, Processed name state batch row next output := by
  intro hclaim
  obtain ⟨next, output, hprocessed⟩ := hclaim dns _ _ _ (takenIn_addressBatch []) "alpha"
    ⟨Collection.empty, Collection.empty⟩
  cases hprocessed.completes

end Signpost.Provisions
