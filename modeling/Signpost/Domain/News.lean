import Signpost.Domain.Authority
import Signpost.Domain.Dissemination

/-! # News of an origin

What an origin has provided last under a key, and which signposts have taken it
since. The duplicate check of a signpost works on the content of messages, so it
does not always tell such news from what the signpost has taken before.
-/

namespace Signpost.Domain

open Bloom Flood Flood.Channels Machine Solver

variable {α δ : Type}

/-- The last truth that the origin has provided under the key. -/
def lastProvision (origin : String) (k : TruthKey) (steps : List (DomainStep α δ)) :
    Option (Provision α) :=
  (latestProvided (localProvisions origin steps) k).map fun provided => provided.1

theorem lastProvision_append {origin : String} {k : TruthKey} {steps : List (DomainStep α δ)}
    {step : DomainStep α δ} :
    lastProvision origin k (steps ++ [step]) =
      (latest Provision.key ((step.input.localProvisions origin).map
        fun provided => provided.1) k).or (lastProvision origin k steps) := by
  rw [lastProvision, latestProvided, localProvisions_append, latest_append, Option.map_or,
    latest_map]
  rfl

/-- What the origin has provided last under a key, and the signposts that have
taken it since. -/
structure News (α : Type) where
  provision : Option (Provision α) := none
  taken : List String := []

/-! ## Telling what is news -/

/-- The duplicate checks of a step tell news from what is not. -/
structure TellsNews (digest : Data α → δ) (origin : String) (k : TruthKey) (news : News α)
    (step : DomainStep α δ) : Prop where
  /-- No copy is in flight of a truth that the origin changes back to. -/
  fresh : ∀ batch, step.input = .solve origin batch → ∀ row ∈ batch.provideTruth, row.key = k →
    news.provision ≠ some row → ¬ step.before.net.wires.InFlight (message row)
  /-- A signpost remembers a copy of the last truth only if it has taken it since
  that was provided. -/
  known : ∀ sender receiver now row rest, step.input = .deliver sender receiver now →
    receiver ≠ origin → step.before.net.wires sender receiver = message row :: rest →
    news.provision = some row → step.before.net.Remembers digest receiver (message row) →
      receiver ∈ news.taken
  /-- A signpost that has taken the last truth remembers any other copy that
  arrives. -/
  outdated : ∀ sender receiver now row rest, step.input = .deliver sender receiver now →
    receiver ≠ origin → step.before.net.wires sender receiver = message row :: rest →
    row.key = k → news.provision ≠ some row → receiver ∈ news.taken →
      step.before.net.Remembers digest receiver (message row)

section Steps

variable {digest : Data α → δ} {origin : String} {k : TruthKey} {news : News α}
  {step : DomainStep α δ}

theorem TellsNews.of_solve {node : String} {batch : Batch α}
    (hinput : step.input = .solve node batch)
    (hfresh : ∀ row ∈ batch.provideTruth, ¬ step.before.net.wires.InFlight (message row)) :
    TellsNews digest origin k news step where
  fresh := by
    intro other hother row hrow _ _
    rw [hinput] at hother
    cases hother
    exact hfresh row hrow
  known := fun _ _ _ _ _ hother => by cases hinput.symm.trans hother
  outdated := fun _ _ _ _ _ hother => by cases hinput.symm.trans hother

theorem TellsNews.of_external {node : String} {timer : Bool} {now : Int}
    (hinput : step.input = .external node timer now) : TellsNews digest origin k news step where
  fresh := fun _ hother => by cases hinput.symm.trans hother
  known := fun _ _ _ _ _ hother => by cases hinput.symm.trans hother
  outdated := fun _ _ _ _ _ hother => by cases hinput.symm.trans hother

/-- The last truth arrives at a signpost that does not remember it. -/
theorem TellsNews.of_deliver {sender receiver : String} {now : Int} {row : Provision α}
    {rest : List (Data α)} (hinput : step.input = .deliver sender receiver now)
    (hhead : step.before.net.wires sender receiver = message row :: rest)
    (hlast : news.provision = some row)
    (hnew : ¬ step.before.net.Remembers digest receiver (message row)) :
    TellsNews digest origin k news step where
  fresh := fun _ hother => by cases hinput.symm.trans hother
  known := by
    intro first last time other later hother _ hotherHead _ hremembers
    cases hinput.symm.trans hother
    obtain ⟨hsame, _⟩ := List.cons.inj (hhead.symm.trans hotherHead)
    exact absurd (hsame ▸ hremembers) hnew
  outdated := by
    intro first last time other later hother _ hotherHead _ hnews
    cases hinput.symm.trans hother
    obtain ⟨hsame, _⟩ := List.cons.inj (hhead.symm.trans hotherHead)
    exact absurd (message_inj.mp hsame ▸ hlast) hnews

end Steps

/-! ## How the news change -/

variable [DecidableEq α]

/-- The origin provides a truth, which is news when it is not the last one. -/
def News.provide (k : TruthKey) (news : News α) (row : Provision α) : News α :=
  if row.key = k ∧ news.provision ≠ some row then { provision := some row } else news

/-- A signpost has taken a message. -/
def News.receive (news : News α) (node : String) (received : Received α) : News α :=
  if ∃ row ∈ received.external, news.provision = some row then
    { news with taken := node :: news.taken }
  else news

def News.after (origin : String) (k : TruthKey) (news : News α) (step : DomainStep α δ) : News α :=
  match step.input with
  | .solve node batch =>
      if node = origin then batch.provideTruth.foldl (News.provide k) news else news
  | .deliver _ receiver _ => step.output.received.elim news (news.receive receiver)
  | _ => news

def newsOf (origin : String) (k : TruthKey) (steps : List (DomainStep α δ)) : News α :=
  steps.foldl (News.after origin k) {}

section News

variable {origin : String} {k : TruthKey} {news : News α} {row : Provision α}
  {rows : List (Provision α)} {steps : List (DomainStep α δ)} {step : DomainStep α δ}

theorem News.provide_of_ne (hkey : row.key ≠ k) : news.provide k row = news :=
  if_neg fun h => hkey h.1

theorem News.provide_last (hlast : news.provision = some row) : news.provide k row = news :=
  if_neg fun h => h.2 hlast

theorem News.provide_new (hkey : row.key = k) (hnew : news.provision ≠ some row) :
    news.provide k row = { provision := some row } :=
  if_pos ⟨hkey, hnew⟩

theorem News.provision_provide (hkey : row.key = k) :
    (news.provide k row).provision = some row := by
  by_cases hlast : news.provision = some row
  · rw [News.provide_last hlast, hlast]
  · rw [News.provide_new hkey hlast]

theorem News.provideAll_of_ne (hother : ∀ row ∈ rows, row.key ≠ k) :
    rows.foldl (News.provide k) news = news := by
  induction rows with
  | nil => rfl
  | cons row rest ih =>
      rw [List.foldl_cons, News.provide_of_ne (hother row List.mem_cons_self)]
      exact ih fun other hmem => hother other (List.mem_cons_of_mem _ hmem)

/-- A batch provides one truth per key, however often. -/
theorem News.provideAll (hrows : KeyFunctional Provision.key rows) (hrow : row ∈ rows)
    (hkey : row.key = k) : rows.foldl (News.provide k) news = news.provide k row := by
  have hsame : ∀ other ∈ rows, other.key = k → other = row :=
    fun other hother hotherKey => hrows other hother row hrow (hotherKey.trans hkey.symm)
  have hrest : ∀ rest ⊆ rows, ∀ known : News α, known.provision = some row →
      rest.foldl (News.provide k) known = known := by
    intro rest hrest known hknown
    induction rest with
    | nil => rfl
    | cons other rest ih =>
        have hother : known.provide k other = known := by
          by_cases hotherKey : other.key = k
          · rw [hsame other (hrest List.mem_cons_self) hotherKey]
            exact News.provide_last hknown
          · exact News.provide_of_ne hotherKey
        rw [List.foldl_cons, hother]
        exact ih fun later hmem => hrest (List.mem_cons_of_mem _ hmem)
  -- what comes before the first copy has other keys, what comes after it changes nothing
  obtain ⟨first, last, rfl, hfirst⟩ := List.eq_append_cons_of_mem hrow
  have hskip : first.foldl (News.provide k) news = news := by
    refine News.provideAll_of_ne fun other hmem hotherKey => hfirst ?_
    exact hsame other (List.mem_append_left _ hmem) hotherKey ▸ hmem
  rw [List.foldl_append, hskip, List.foldl_cons]
  refine hrest last (fun other hmem => ?_) _ (News.provision_provide hkey)
  exact List.mem_append_right _ (List.mem_cons_of_mem _ hmem)

theorem News.provision_provideAll : (rows.foldl (News.provide k) news).provision =
    (latest Provision.key rows k).or news.provision := by
  induction rows generalizing news with
  | nil => rfl
  | cons row rest ih =>
      rw [List.foldl_cons, ih, ← List.singleton_append, latest_append, Option.or_assoc]
      congr 1
      by_cases hkey : row.key = k
      · rw [News.provision_provide hkey]
        simp [latest, hkey]
      · rw [News.provide_of_ne hkey]
        simp [latest, hkey]

theorem News.provision_receive (node : String) (received : Received α) :
    (news.receive node received).provision = news.provision := by
  unfold News.receive
  split <;> rfl

theorem newsOf_append :
    newsOf origin k (steps ++ [step]) = (newsOf origin k steps).after origin k step :=
  List.foldl_concat ..

theorem newsOf_provision : (newsOf origin k steps).provision = lastProvision origin k steps := by
  induction steps using List.reverseRecOn with
  | nil => rfl
  | append_singleton steps step ih =>
      rw [newsOf_append, lastProvision_append, ← ih, News.after]
      cases hinput : step.input with
      | solve node batch =>
          by_cases hnode : node = origin
          · simp only [Event.localProvisions, if_pos hnode, News.provision_provideAll, List.map_map]
            exact congrArg (fun rows => (latest Provision.key rows k).or _) (List.map_id _).symm
          · simp [Event.localProvisions, hnode, latest]
      | external node timer now => rfl
      | deliver sender receiver now =>
          cases hreceived : step.output.received with
          | none => rfl
          | some received => exact News.provision_receive receiver received
      | pruneBroadcastCache node now => rfl

end News

/-- The duplicate checks of all steps tell news from what is not. -/
def AllTellNews (digest : Data α → δ) (origin : String) (k : TruthKey)
    (steps : List (DomainStep α δ)) : Prop :=
  ∀ before step, before ++ [step] <+: steps →
    TellsNews digest origin k (newsOf origin k before) step

end Signpost.Domain
