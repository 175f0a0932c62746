import Signpost.Routing.InfoCollector
import Mathlib.Data.List.Perm.Subperm

/-! # A domain of routing nodes

Messages wait at their receiver until one of its timesteps takes them in, in any
order and together with any others. Local tactics report to their node whatever
their scripts find out.
-/

namespace Signpost.Routing

open Bloom Machine

structure Config where
  server : Host
  name : Host → String
  heartbeatFrequency : Host → Int

def Config.node (config : Config) (host : Host) : Node :=
  ⟨host, config.name host, config.heartbeatFrequency host⟩

/-- A domain whose nodes are named after their hosts. -/
def namedByHost (server : Host) : Config where
  server := server
  name := fun host => host
  heartbeatFrequency := fun _ => 1

/-- The states of the nodes that have started, and the messages under way with
their receivers. -/
structure Network where
  states : Host → Option State
  mail : List (Host × Message)

namespace Network

variable (network : Network)

def Started (host : Host) : Prop := ∃ state, network.states host = some state

def Knows (host other : Host) : Prop :=
  ∃ state, network.states host = some state ∧ state.Knows other

instance (host : Host) : Decidable (network.Started host) :=
  decidable_of_iff (network.states host).isSome Option.isSome_iff_exists

instance (host other : Host) : Decidable (network.Knows host other) :=
  decidable_of_iff ((network.states host).any fun state => state.Knows other) <| by
    simp [Knows, Option.any_eq_true]

end Network

inductive Event
  | start (host : Host) (now : Int)
  | timestep (host : Host) (batch : Batch)
  | report (host : Host) (message : Message)
deriving DecidableEq

inductive NetworkError
  | disabled
  | collector (error : CollectorError)
deriving DecidableEq

/-- The channels of `TacticProtocol` on which tactics send. -/
def Message.ofTactic : Message → Bool
  | .tacticSignup _ | .tacticEvaluationResult _ | .failedEvaluationResult _ => true
  | _ => false

/-- The messages that a timestep takes in, as they wait at the node. -/
def Batch.taken (batch : Batch) (host : Host) : List (Host × Message) :=
  batch.messages.map fun message => (host, message)

def step (config : Config) (network : Network) : Event → Except NetworkError (Network × Output)
  | .start host now =>
      match network.states host with
      | some _ => .error .disabled
      | none =>
          let isServer := decide (host = config.server)
          let output : Output :=
            { sent := bootstrapSends (config.node host) isServer config.server }
          .ok ({ states := Function.update network.states host
                  (some (bootstrapState (config.node host) isServer now))
                 mail := network.mail ++ output.sent }, output)
  | .timestep host batch =>
      match network.states host with
      | none => .error .disabled
      | some state =>
          if ¬ (batch.taken host).Subperm network.mail then .error .disabled
          else
            match timestep (config.node host) state batch with
            | .error error => .error (.collector error)
            | .ok (next, output) =>
                .ok ({ states := Function.update network.states host (some next)
                       mail := network.mail.diff (batch.taken host) ++ output.sent }, output)
  | .report host message =>
      if message.ofTactic then
        .ok ({ network with mail := network.mail ++ [(host, message)] }, {})
      else .error .disabled

def initial : Network := ⟨fun _ => none, []⟩

abbrev NetworkStep := Transition Network Event Output

abbrev NetworkRun (config : Config) : List NetworkStep → Network → Prop :=
  Run (step config) initial

/-! ## What an event does -/

variable {config : Config} {network next : Network} {output : Output}

theorem start_cases {host : Host} {now : Int}
    (hok : step config network (.start host now) = .ok (next, output)) :
    network.states host = none ∧
      next.states = Function.update network.states host
        (some (bootstrapState (config.node host) (host = config.server) now)) ∧
      next.mail = network.mail ++
        (bootstrapSends (config.node host) (host = config.server) config.server) := by
  simp only [step] at hok
  split at hok
  next => cases hok
  next hnone =>
    cases hok
    exact ⟨hnone, rfl, rfl⟩

/-- A timestep takes in messages that wait at the node and leaves the others. -/
structure Steps (config : Config) (network : Network) (host : Host) (batch : Batch)
    (state after : State) (next : Network) : Prop where
  found : network.states host = some state
  taken : ∀ message ∈ batch.messages, (host, message) ∈ network.mail
  fires : ∃ output, Fires (config.node host) state batch after output
  states_eq : next.states = Function.update network.states host (some after)
  mail_eq : next.mail =
    network.mail.diff (batch.taken host) ++ sends (config.node host) state batch

theorem timestep_cases {host : Host} {batch : Batch}
    (hok : step config network (.timestep host batch) = .ok (next, output)) :
    ∃ state after, Steps config network host batch state after next := by
  simp only [step] at hok
  split at hok
  next => cases hok
  next state hfound =>
  split at hok
  next => cases hok
  next htaken =>
  split at hok
  next => cases hok
  next after sent htimestep =>
  cases hok
  have hfires := fires_of_timestep htimestep
  refine ⟨state, after, hfound, fun message hmem => ?_, ⟨_, hfires⟩, rfl, ?_⟩
  · exact (not_not.mp htaken).subset (List.mem_map_of_mem hmem)
  · rw [hfires.sent_eq]

theorem report_cases {host : Host} {message : Message}
    (hok : step config network (.report host message) = .ok (next, output)) :
    message.ofTactic = true ∧ next.states = network.states ∧
      next.mail = network.mail ++ [(host, message)] := by
  simp only [step] at hok
  split at hok
  next htactic =>
    cases hok
    exact ⟨htactic, rfl, rfl⟩
  next => cases hok

namespace Steps

variable {host receiver : Host} {batch : Batch} {state after : State} {message : Message}

theorem mem_mail (hsteps : Steps config network host batch state after next)
    (hmem : (receiver, message) ∈ next.mail) :
    (receiver, message) ∈ network.mail ∨
      (receiver, message) ∈ sends (config.node host) state batch := by
  rw [hsteps.mail_eq, List.mem_append] at hmem
  exact hmem.imp_left fun hold => List.diff_subset _ _ hold

theorem mem_mail_of_sends (hsteps : Steps config network host batch state after next)
    (hmem : (receiver, message) ∈ sends (config.node host) state batch) :
    (receiver, message) ∈ next.mail := by
  rw [hsteps.mail_eq]
  exact List.mem_append_right _ hmem

/-- What is under way stays so unless it is taken in. -/
theorem mem_mail_or_mem (hsteps : Steps config network host batch state after next)
    (hmem : (receiver, message) ∈ network.mail) :
    (receiver, message) ∈ next.mail ∨ receiver = host ∧ message ∈ batch.messages := by
  by_cases htaken : (receiver, message) ∈ batch.taken host
  · obtain ⟨taken, hmessage, heq⟩ := List.mem_map.mp htaken
    obtain ⟨rfl, rfl⟩ := Prod.mk.inj heq
    exact Or.inr ⟨rfl, hmessage⟩
  · left
    rw [hsteps.mail_eq]
    exact List.mem_append_left _ (List.mem_diff_of_mem hmem htaken)

end Steps

/-- What is under way to a node and its tables change only in its own timesteps. -/
theorem kept_of_step {event : Event} {host : Host}
    (hok : step config network event = .ok (next, output))
    (hother : ∀ batch, event ≠ .timestep host batch) :
    (∀ message, (host, message) ∈ network.mail → (host, message) ∈ next.mail) ∧
      ∀ state, network.states host = some state → next.states host = some state := by
  cases event with
  | start other now =>
      obtain ⟨hnone, hstates, hmail⟩ := start_cases hok
      refine ⟨fun message hmem => hmail ▸ List.mem_append_left _ hmem, fun state hstate => ?_⟩
      have hdiffers : host ≠ other := by
        rintro rfl
        simp [hnone] at hstate
      rwa [hstates, Function.update_of_ne hdiffers]
  | timestep other batch =>
      obtain ⟨_, _, hsteps⟩ := timestep_cases hok
      have hdiffers : host ≠ other := by
        rintro rfl
        exact hother batch rfl
      constructor
      · intro message hmem
        exact (hsteps.mem_mail_or_mem hmem).resolve_right fun htaken => hdiffers htaken.1
      · intro state hstate
        rwa [hsteps.states_eq, Function.update_of_ne hdiffers]
  | report other message =>
      obtain ⟨_, hstates, hmail⟩ := report_cases hok
      exact ⟨fun sent hmem => hmail ▸ List.mem_append_left _ hmem,
        fun state hstate => hstates ▸ hstate⟩

end Signpost.Routing
