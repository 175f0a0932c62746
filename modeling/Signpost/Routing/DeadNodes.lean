import Signpost.Routing.NodeRuns

/-! # Links of dead nodes

A node that has not been heard of for two heartbeats is deleted as the exact row
that was found, and the links from it are deleted by its name. The two deletions
part when the node is heard of in the same timestep, or has its name in common
with another one.
-/

namespace Signpost.Routing

open Bloom Machine

variable (node : Node) (state : State) (batch : Batch)

/-- After a timestep the liveness rules have removed a link only from a node
without a row, and have left none of the links of a node that they removed. -/
structure LinksFollow (next : State) : Prop where
  gone : ∀ link ∈ deadLinks node state batch, link ∉ next.links →
    ∀ row ∈ next.nodes, row.name ≠ link.fromNode
  removed : ∀ dead ∈ deadNodes node state batch, ¬ next.Knows dead.host →
    ∀ link ∈ state.links, link.fromNode = dead.name → link ∉ next.links

/-- The timestep brings a row for the host. -/
def Refreshes (host : Host) : Prop := ∃ update ∈ nodeUpdates state batch, update.host = host

/-- What a timestep has to satisfy for each link of a dead node. A link that does
not arrive again has no other node of its name, neither among the rows that the
timestep brings nor among those that it leaves. A link that arrives again belongs
to a host that is heard of. -/
structure Unambiguous : Prop where
  unnamed : ∀ dead ∈ deadNodes node state batch, ∀ link ∈ state.links, link.fromNode = dead.name →
    link ∉ batch.pushLink →
      (∀ update ∈ nodeUpdates state batch, update.name ≠ dead.name) ∧
        ∀ other ∈ state.nodes, other.name = dead.name →
          other ∈ deadNodes node state batch ∨ Refreshes state batch other.host
  refreshed : ∀ dead ∈ deadNodes node state batch, ∀ link ∈ state.links,
    link.fromNode = dead.name → link ∈ batch.pushLink → Refreshes state batch dead.host

variable {node state batch} {next : State} {output : Output}

theorem mem_deadLinks {link : LinkRow} :
    link ∈ deadLinks node state batch ↔
      link ∈ state.links ∧ ∃ dead ∈ deadNodes node state batch, dead.name = link.fromNode := by
  simp [deadLinks, Collection.mem_rows]

theorem mem_nodes_of_mem_deadNodes {dead : NodeRow} (hdead : dead ∈ deadNodes node state batch) :
    dead ∈ state.nodes := by
  unfold deadNodes at hdead
  split at hdead
  · exact (List.mem_filter.mp hdead).1
  · cases hdead

namespace Fires

/-- A link of a dead node is there after the timestep only if it has arrived
again. -/
theorem mem_links_of_dead (hfires : Fires node state batch next output) {link : LinkRow}
    (hdead : link ∈ deadLinks node state batch) : link ∈ next.links ↔ link ∈ batch.pushLink := by
  rw [hfires.mem_links]
  constructor
  · rintro (hpush | ⟨-, hkept, -⟩)
    · exact hpush
    · exact absurd (List.mem_append_left _ hdead) hkept
  · exact .inl

/-- A host that has been found dead is known afterwards only if it was heard of. -/
theorem knows_of_dead (hfires : Fires node state batch next output) {dead : NodeRow}
    (hdead : dead ∈ deadNodes node state batch) :
    next.Knows dead.host ↔ Refreshes state batch dead.host := by
  constructor
  · rintro ⟨row, hrow, hhost⟩
    rcases (hfires.mem_nodes row).mp hrow with hupdate | ⟨hold, halive, -⟩
    · exact ⟨row, hupdate, hhost⟩
    · have hsame : row = dead :=
        Collection.eq_of_key hold (mem_nodes_of_mem_deadNodes hdead) hhost
      exact absurd (hsame ▸ hdead) halive
  · rintro ⟨update, hupdate, hhost⟩
    exact ⟨update, (hfires.mem_nodes update).mpr (.inl hupdate), hhost⟩

/-- The name of a row is left in the table when the timestep brings it, or when
another row with it is neither dead nor replaced. -/
theorem not_named_iff (hfires : Fires node state batch next output) (name : String) :
    (∀ row ∈ next.nodes, row.name ≠ name) ↔
      (∀ update ∈ nodeUpdates state batch, update.name ≠ name) ∧
        ∀ other ∈ state.nodes, other.name = name →
          other ∈ deadNodes node state batch ∨ Refreshes state batch other.host := by
  constructor
  · intro hnone
    refine ⟨fun update hupdate => hnone update ((hfires.mem_nodes update).mpr (.inl hupdate)), ?_⟩
    intro other hother hname
    by_contra hkept
    rw [not_or] at hkept
    refine hnone other ((hfires.mem_nodes other).mpr (.inr ⟨hother, hkept.1, ?_⟩)) hname
    exact fun update hupdate hkey => hkept.2 ⟨update, hupdate, hkey⟩
  · rintro ⟨hupdates, hothers⟩ row hrow hname
    rcases (hfires.mem_nodes row).mp hrow with hupdate | ⟨hold, halive, hkept⟩
    · exact hupdates row hupdate hname
    · rcases hothers row hold hname with hdead | ⟨update, hupdate, hhost⟩
      · exact halive hdead
      · exact hkept update hupdate hhost

theorem linksFollow_iff (hfires : Fires node state batch next output) :
    LinksFollow node state batch next ↔ Unambiguous node state batch := by
  constructor
  · intro hfollow
    constructor
    · intro dead hdead link hlink hfrom hpush
      have hdeadLink : link ∈ deadLinks node state batch :=
        mem_deadLinks.mpr ⟨hlink, dead, hdead, hfrom.symm⟩
      rw [← hfrom, ← hfires.not_named_iff]
      exact hfollow.gone link hdeadLink fun hkept =>
        hpush ((hfires.mem_links_of_dead hdeadLink).mp hkept)
    · intro dead hdead link hlink hfrom hpush
      rw [← hfires.knows_of_dead hdead]
      by_contra hforgotten
      refine hfollow.removed dead hdead hforgotten link hlink hfrom ?_
      exact (hfires.mem_links link).mpr (.inl hpush)
  · intro hclear
    constructor
    · intro link hdeadLink hgone
      obtain ⟨hlink, dead, hdead, hname⟩ := mem_deadLinks.mp hdeadLink
      rw [hfires.not_named_iff, ← hname]
      exact hclear.unnamed dead hdead link hlink hname.symm fun hpush =>
        hgone ((hfires.mem_links_of_dead hdeadLink).mpr hpush)
    · intro dead hdead hforgotten link hlink hfrom hkept
      have hdeadLink : link ∈ deadLinks node state batch :=
        mem_deadLinks.mpr ⟨hlink, dead, hdead, hfrom.symm⟩
      refine hforgotten ((hfires.knows_of_dead hdead).mpr ?_)
      exact hclear.refreshed dead hdead link hlink hfrom
        ((hfires.mem_links_of_dead hdeadLink).mp hkept)

end Fires

/-- Links go only with their node in all timesteps of a run. -/
def LinksFollowNodes (node : Node) (steps : List NodeStep) : Prop :=
  ∀ step ∈ steps, LinksFollow node step.before step.input step.after

theorem linksFollowNodes_iff {isServer : Bool} {started : Int} {steps : List NodeStep}
    (hrun : NodeRun node isServer started steps state) :
    LinksFollowNodes node steps ↔ ∀ step ∈ steps, Unambiguous node step.before step.input := by
  have hsteps : ∀ step ∈ steps,
      LinksFollow node step.before step.input step.after ↔
        Unambiguous node step.before step.input :=
    fun step hstep => (fires_of_timestep (Run.step_eq hrun hstep)).linksFollow_iff
  exact forall₂_congr hsteps

/-! ## A heartbeat that comes late -/

def cafe : Contact := ⟨"10.0.0.2:9000", "cafe"⟩

def cafeLink : LinkRow := ⟨"cafe", "phone", "direct_connection", "eth0", 20, 100, 0, 3600, 2⟩

/-- The heartbeat of a node arrives together with the tick that finds it dead. -/
def lateHeartbeat : List Batch :=
  [{ messages := [.heart cafe, .pushLink cafeLink], now := 0 },
    { messages := [.heart cafe], heartbeatTimer := true, now := 30 }]

def lateHeartbeatSteps : List NodeStep :=
  record (timestep homeNode) (bootstrapState homeNode true 0) lateHeartbeat

theorem linksFollowNodes_iff_lateHeartbeat :
    LinksFollowNodes homeNode lateHeartbeatSteps ↔
      ∀ step ∈ lateHeartbeatSteps, Unambiguous homeNode step.before step.input :=
  linksFollowNodes_iff
    (run_record (timestep homeNode) (bootstrapState homeNode true 0) lateHeartbeat)

theorem not_linksFollowNodes_lateHeartbeat :
    ¬ ∀ (node : Node) (isServer : Bool) (started : Int) (steps : List NodeStep) (state : State),
      NodeRun node isServer started steps state → LinksFollowNodes node steps := by
  intro hclaim
  obtain ⟨last, hlast, hfacts⟩ := (Option.any_eq_true _ _).mp
    (by decide +kernel : lateHeartbeatSteps[1]?.any (fun last =>
      cafeLink ∈ deadLinks homeNode last.before last.input ∧ cafeLink ∉ last.after.links ∧
        ∃ row ∈ last.after.nodes.rows, row.name = "cafe") = true)
  obtain ⟨hdead, hgone, row, hrow, hname⟩ := of_decide_eq_true hfacts
  have hfollow := hclaim homeNode true 0 lateHeartbeatSteps _ (run_record _ _ lateHeartbeat) last
    (List.mem_of_getElem? hlast)
  exact hfollow.gone cafeLink hdead hgone row hrow hname

end Signpost.Routing
