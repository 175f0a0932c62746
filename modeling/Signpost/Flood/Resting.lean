import Mathlib.Algebra.BigOperators.Group.Finset.Piecewise
import Mathlib.Data.Finset.Prod
import Signpost.Flood.Channels

/-! # Floods come to rest

A message that is taken either leaves its channel for good, or its receiver remembers it
from then on. There are only so many messages and receivers.
-/

namespace Flood

open Channels

variable {ν μ δ : Type*} [DecidableEq ν] [DecidableEq δ]

/-- The number of messages in flight between the nodes. -/
def load (nodes : Finset ν) (channels : Channels ν μ) : ℕ :=
  ∑ pair ∈ nodes ×ˢ nodes, (channels pair.1 pair.2).length

/-- Which nodes do not remember which messages. -/
def unseen (nodes : Finset ν) (keys : Finset δ) (seen : ν → δ → Bool) : Finset (ν × δ) :=
  (nodes ×ˢ keys).filter fun pair => ¬ seen pair.1 pair.2

/-- Each message that is not remembered may still be sent to all nodes. -/
def potential (nodes : Finset ν) (keys : Finset δ) (seen : ν → δ → Bool)
    (channels : Channels ν μ) : ℕ :=
  nodes.card * (unseen nodes keys seen).card + load nodes channels

variable {nodes : Finset ν} {keys : Finset δ} {seen remembered : ν → δ → Bool}
  {channels : Channels ν μ} {sender node : ν} {message : μ} {rest : List μ} {targets : List ν}

theorem load_take (hsender : sender ∈ nodes) (hnode : node ∈ nodes)
    (hhead : channels sender node = message :: rest) :
    load nodes (channels.take sender node) + 1 = load nodes channels := by
  have hmem : (sender, node) ∈ nodes ×ˢ nodes := Finset.mem_product.mpr ⟨hsender, hnode⟩
  have hothers : ∀ pair ∈ (nodes ×ˢ nodes).erase (sender, node),
      (channels.take sender node pair.1 pair.2).length = (channels pair.1 pair.2).length := by
    intro pair hpair
    rw [take_of_not]
    rintro ⟨rfl, rfl⟩
    exact Finset.ne_of_mem_erase hpair rfl
  rw [load, load, ← Finset.add_sum_erase _ _ hmem, ← Finset.add_sum_erase _ _ hmem,
    Finset.sum_congr rfl hothers]
  simp only [take_head hhead, hhead, List.length_cons]
  omega

theorem load_send_le (nodes : Finset ν) (channels : Channels ν μ) (node : ν) (targets : List ν)
    (message : μ) :
    load nodes (channels.send node targets message) ≤ load nodes channels + targets.length := by
  have hlength : ∀ pair : ν × ν, (channels.send node targets message pair.1 pair.2).length =
      (channels pair.1 pair.2).length + if pair.1 = node ∧ pair.2 ∈ targets then 1 else 0 := by
    intro pair
    by_cases h : pair.1 = node ∧ pair.2 ∈ targets
    · rw [send_of_mem h.1 h.2, if_pos h, List.length_append, List.length_singleton]
    · rw [send_of_not h, if_neg h, Nat.add_zero]
  have hsubset : (nodes ×ˢ nodes).filter (fun pair => pair.1 = node ∧ pair.2 ∈ targets) ⊆
      {node} ×ˢ targets.toFinset := by
    intro pair hpair
    obtain ⟨hfirst, hsecond⟩ := (Finset.mem_filter.mp hpair).2
    exact Finset.mem_product.mpr
      ⟨Finset.mem_singleton.mpr hfirst, List.mem_toFinset.mpr hsecond⟩
  have hcard := Finset.card_le_card hsubset
  rw [Finset.card_product, Finset.card_singleton, Nat.one_mul] at hcard
  rw [load, load, Finset.sum_congr rfl fun pair _ => hlength pair, Finset.sum_add_distrib,
    ← Finset.card_filter]
  exact Nat.add_le_add_left (hcard.trans (List.toFinset_card_le targets)) _

omit [DecidableEq δ] in
/-- A message is taken that its receiver remembers. -/
theorem potential_take (hsender : sender ∈ nodes) (hnode : node ∈ nodes)
    (hhead : channels sender node = message :: rest) :
    potential nodes keys seen (channels.take sender node) < potential nodes keys seen channels := by
  have hload := load_take hsender hnode hhead
  unfold potential
  omega

/-- A message is taken, remembered, and sent on. -/
theorem potential_relay {key : δ} (hsender : sender ∈ nodes) (hnode : node ∈ nodes)
    (hhead : channels sender node = message :: rest) (hkey : key ∈ keys)
    (hnew : seen node key = false) (hremembered : remembered node key = true)
    (hkept : ∀ node key, seen node key = true → remembered node key = true)
    (htargets : targets.toFinset ⊆ nodes) (hnodup : targets.Nodup) :
    potential nodes keys remembered ((channels.take sender node).send node targets message) <
      potential nodes keys seen channels := by
  have hload := load_take hsender hnode hhead
  have hsend := load_send_le nodes (channels.take sender node) node targets message
  have hlength : targets.length ≤ nodes.card := by
    rw [← List.toFinset_card_of_nodup hnodup]
    exact Finset.card_le_card htargets
  have hmem : (node, key) ∈ unseen nodes keys seen :=
    Finset.mem_filter.mpr ⟨Finset.mem_product.mpr ⟨hnode, hkey⟩, by simp [hnew]⟩
  have hsubset : unseen nodes keys remembered ⊆ (unseen nodes keys seen).erase (node, key) := by
    intro pair hpair
    obtain ⟨hproduct, hunseen⟩ := Finset.mem_filter.mp hpair
    refine Finset.mem_erase.mpr ⟨?_, Finset.mem_filter.mpr ⟨hproduct, fun hseen => ?_⟩⟩
    · rintro rfl
      exact hunseen hremembered
    · exact hunseen (hkept _ _ hseen)
  -- one pair fewer is unseen, which pays for the copies that are sent
  have hcard : (unseen nodes keys remembered).card + 1 ≤ (unseen nodes keys seen).card := by
    have hle := Finset.card_le_card hsubset
    rw [Finset.card_erase_of_mem hmem] at hle
    have hpos := Finset.card_pos.mpr ⟨_, hmem⟩
    omega
  have hmul := Nat.mul_le_mul_left nodes.card hcard
  rw [Nat.mul_add, Nat.mul_one] at hmul
  unfold potential
  omega

end Flood
