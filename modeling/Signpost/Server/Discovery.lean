import Mathlib.Data.List.Perm.Subperm

/-! # Discovering services

The listening sockets of a device are looked up again and again. The cache of
services is brought up to date by a loop that removes from the list that it goes
through, so that the entry behind a removed one is passed over.
-/

namespace Signpost.Discovery

/-! ## Sockets -/

inductive Family
  | inet
  | other
deriving DecidableEq, Repr

inductive SocketType
  | stream
  | dgram
  | other
deriving DecidableEq, Repr

structure Connection where
  family : Family
  type : SocketType
  status : String
  ip : String
  port : ℕ
deriving DecidableEq, Repr

/-- A process with its connections, as the operating system lists them. -/
structure Process where
  name : String
  connections : List Connection
deriving DecidableEq, Repr

structure Entry where
  name : String
  ip : String
  port : ℕ
  type : String
deriving DecidableEq, Repr

def entryOf (name : String) (conn : Connection) : Option Entry :=
  if conn.family = .inet then
    if conn.type = .stream ∧ conn.status = "LISTEN" then some ⟨name, conn.ip, conn.port, "tcp"⟩
    else if conn.type = .dgram then some ⟨name, conn.ip, conn.port, "udp"⟩
    else none
  else none

/-- The entries for the sockets that are listening. -/
def localCache (processes : List Process) : List Entry :=
  processes.flatMap fun p => p.connections.filterMap (entryOf p.name)

/-! ## The update -/

/-- The first loop. It goes through the cache by an index, while `remove` deletes
the first equal entry and moves the ones behind it forward. -/
def compare (index : ℕ) (serviceCache localCache : List Entry) : List Entry × List Entry :=
  if hindex : index < serviceCache.length then
    let entry := serviceCache[index]
    if entry ∈ localCache then compare (index + 1) serviceCache (localCache.erase entry)
    else compare (index + 1) (serviceCache.erase entry) localCache
  else (serviceCache, localCache)
termination_by serviceCache.length - index
decreasing_by
  · omega
  · have hlength := List.length_erase_of_mem (List.getElem_mem hindex)
    omega

def serviceUpdate (serviceCache : List Entry) (processes : List Process) : List Entry :=
  let compared := compare 0 serviceCache (localCache processes)
  compared.1 ++ compared.2

/-- The cache after some updates. -/
def cacheAfter (updates : List (List Process)) : List Entry := updates.foldl serviceUpdate []

/-! ## Entries that are passed over -/

/-- The entries of the cache that the loop does not look at. -/
def passedOver : List Entry → List Entry → List Entry
  | [], _ => []
  | [_], _ => []
  | entry :: next :: rest, localCache =>
      if entry ∈ localCache then passedOver (next :: rest) (localCache.erase entry)
      else next :: passedOver rest localCache

theorem compare_of_mem {kept rest listed : List Entry} {entry : Entry} (hmem : entry ∈ listed) :
    compare kept.length (kept ++ entry :: rest) listed =
      compare (kept ++ [entry]).length ((kept ++ [entry]) ++ rest) (listed.erase entry) := by
  rw [compare]
  simp [hmem]

/-- The entry that is removed need not be the one at the index, but has its
value. -/
theorem exists_erase (kept rest : List Entry) (entry : Entry) :
    ∃ others, others.Perm kept ∧ (kept ++ entry :: rest).erase entry = others ++ rest := by
  by_cases hmem : entry ∈ kept
  · refine ⟨kept.erase entry ++ [entry], ?_, ?_⟩
    · exact (List.perm_append_singleton _ _).trans (List.perm_cons_erase hmem).symm
    · rw [List.erase_append_left _ hmem]
      simp
  · refine ⟨kept, .refl _, ?_⟩
    rw [List.erase_append_right _ hmem, List.erase_cons_head]

theorem compare_of_not_mem {listed : List Entry} {entry : Entry} (hnot : entry ∉ listed)
    (kept rest : List Entry) :
    ∃ others, others.Perm kept ∧
      compare kept.length (kept ++ entry :: rest) listed =
        compare (others.length + 1) (others ++ rest) listed := by
  obtain ⟨others, hperm, herase⟩ := exists_erase kept rest entry
  refine ⟨others, hperm, ?_⟩
  rw [compare]
  simp [hnot, herase, hperm.length_eq]

theorem compare_of_le {index : ℕ} {cache listed : List Entry} (hle : cache.length ≤ index) :
    compare index cache listed = (cache, listed) := by
  rw [compare, dif_neg (by omega)]

/-- An entry moves from what is listed to what is kept. -/
theorem perm_of_kept {listed : List Entry} {entry : Entry} (hmem : entry ∈ listed)
    (kept more : List Entry) :
    (listed.erase entry ++ ((kept ++ [entry]) ++ more)).Perm (listed ++ (kept ++ more)) := by
  refine List.perm_iff_count.mpr fun other => ?_
  have hcount := (List.perm_cons_erase hmem).count_eq other
  simp only [List.count_append, List.count_cons, List.count_nil] at hcount ⊢
  omega

/-- What the loop leaves in both lists: what is listed, what it has kept before,
and what it passes over. -/
theorem compare_perm (kept rest listed : List Entry) :
    ((compare kept.length (kept ++ rest) listed).1 ++
      (compare kept.length (kept ++ rest) listed).2).Perm
        (listed ++ (kept ++ passedOver rest listed)) := by
  induction rest, listed using passedOver.induct generalizing kept with
  | case1 listed =>
      rw [compare_of_le (by simp), passedOver]
      simpa using List.perm_append_comm
  | case2 entry listed =>
      by_cases hmem : entry ∈ listed
      · rw [compare_of_mem hmem, compare_of_le (by simp), passedOver, List.append_nil]
        exact List.perm_append_comm.trans (by simpa using perm_of_kept hmem kept [])
      · obtain ⟨others, hperm, heq⟩ := compare_of_not_mem hmem kept []
        rw [heq, compare_of_le (by simp), passedOver]
        simpa using (hperm.append_right listed).trans List.perm_append_comm
  | case3 entry next rest listed hmem ih =>
      rw [compare_of_mem hmem, passedOver, if_pos hmem]
      exact (ih (kept ++ [entry])).trans (perm_of_kept hmem kept _)
  | case4 entry next rest listed hnot ih =>
      obtain ⟨others, hperm, heq⟩ := compare_of_not_mem hnot kept (next :: rest)
      have hnext : compare (others.length + 1) (others ++ next :: rest) listed =
          compare (others ++ [next]).length ((others ++ [next]) ++ rest) listed := by simp
      rw [heq, hnext, passedOver, if_neg hnot]
      refine (ih (others ++ [next])).trans ((List.Perm.append_left _ ?_))
      rw [List.append_assoc]
      exact hperm.append_right _

/-- An update leaves what is listed and what it has passed over. -/
theorem serviceUpdate_perm (cache : List Entry) (processes : List Process) :
    (serviceUpdate cache processes).Perm
      (localCache processes ++ passedOver cache (localCache processes)) :=
  compare_perm [] cache (localCache processes)

/-- Nothing is passed over when only the last entry may have vanished. -/
theorem passedOver_eq_nil_iff (cache listed : List Entry) :
    passedOver cache listed = [] ↔ cache.dropLast.Subperm listed := by
  induction cache, listed using passedOver.induct with
  | case1 listed => simp [passedOver]
  | case2 entry listed => simp [passedOver]
  | case3 entry next rest listed hmem ih =>
      rw [passedOver, if_pos hmem, ih, List.dropLast_cons_cons]
      exact ((List.perm_cons_erase hmem).subperm_left.trans (List.subperm_cons entry)).symm
  | case4 entry next rest listed hnot ih =>
      rw [passedOver, if_neg hnot, List.dropLast_cons_cons]
      refine iff_of_false (List.cons_ne_nil _ _) fun hsub => hnot (hsub.subset ?_)
      exact List.mem_cons_self

/-- After an update the cache has exactly the listed entries if all entries
before its last one are still listed. -/
theorem serviceUpdate_perm_iff (updates : List (List Process)) (processes : List Process) :
    (serviceUpdate (cacheAfter updates) processes).Perm (localCache processes) ↔
      (cacheAfter updates).dropLast.Subperm (localCache processes) := by
  rw [← passedOver_eq_nil_iff]
  have hperm := serviceUpdate_perm (cacheAfter updates) processes
  constructor
  · intro hsame
    have hlength := (hperm.symm.trans hsame).length_eq
    rw [List.length_append] at hlength
    exact List.length_eq_zero_iff.mp (by omega)
  · intro hnone
    rwa [hnone, List.append_nil] at hperm

/-! ## Two services that stop -/

def sshd : Process := ⟨"sshd", [⟨.inet, .stream, "LISTEN", "0.0.0.0", 22⟩]⟩

def httpd : Process := ⟨"httpd", [⟨.inet, .stream, "LISTEN", "0.0.0.0", 80⟩]⟩

/-- The second of two services that have stopped stays in the cache. -/
theorem serviceUpdate_of_stopped :
    serviceUpdate (cacheAfter [[sshd, httpd]]) [] = [⟨"httpd", "0.0.0.0", 80, "tcp"⟩] := by
  simp [serviceUpdate, cacheAfter, compare, localCache, entryOf, sshd, httpd]

theorem not_serviceUpdate_perm :
    ¬ ∀ (updates : List (List Process)) (processes : List Process),
      (serviceUpdate (cacheAfter updates) processes).Perm (localCache processes) := by
  intro hclaim
  have hstopped := hclaim [[sshd, httpd]] []
  rw [serviceUpdate_of_stopped] at hstopped
  exact absurd hstopped.length_eq (by decide)

end Signpost.Discovery
