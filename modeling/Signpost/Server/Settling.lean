import Signpost.Server.Discovery

/-! # Discovery settles

An update passes entries over: those that have vanished stay in the cache, and those that are
still listed are added once more. While the same sockets are listening, the next updates
repair that.
-/

namespace Signpost.Discovery

/-! ## What the loop leaves of the list -/

/-- The listed entries for which the loop looks at no entry of the cache. -/
def unmatched : List Entry → List Entry → List Entry
  | [], listed => listed
  | [entry], listed => listed.erase entry
  | entry :: next :: rest, listed =>
      if entry ∈ listed then unmatched (next :: rest) (listed.erase entry)
      else unmatched rest listed

theorem compare_snd (kept rest listed : List Entry) :
    (compare kept.length (kept ++ rest) listed).2 = unmatched rest listed := by
  induction rest, listed using passedOver.induct generalizing kept with
  | case1 listed => rw [compare_of_le (by simp), unmatched]
  | case2 entry listed =>
      rw [unmatched]
      by_cases hmem : entry ∈ listed
      · rw [compare_of_mem hmem, compare_of_le (by simp)]
      · obtain ⟨others, hperm, heq⟩ := compare_of_not_mem hmem kept []
        rw [heq, compare_of_le (by simp), List.erase_of_not_mem hmem]
  | case3 entry next rest listed hmem ih =>
      rw [compare_of_mem hmem, unmatched, if_pos hmem]
      exact ih (kept ++ [entry])
  | case4 entry next rest listed hnot ih =>
      obtain ⟨others, hperm, heq⟩ := compare_of_not_mem hnot kept (next :: rest)
      have hnext : compare (others.length + 1) (others ++ next :: rest) listed =
          compare (others ++ [next]).length ((others ++ [next]) ++ rest) listed := by simp
      rw [heq, hnext, unmatched, if_neg hnot]
      exact ih (others ++ [next])

theorem serviceUpdate_eq (cache : List Entry) (processes : List Process) :
    serviceUpdate cache processes =
      (compare 0 cache (localCache processes)).1 ++ unmatched cache (localCache processes) := by
  rw [serviceUpdate]
  congr 1
  exact compare_snd [] cache (localCache processes)

theorem length_unmatched_le (cache listed : List Entry) :
    (unmatched cache listed).length ≤ listed.length := by
  induction cache, listed using passedOver.induct with
  | case1 listed => exact Nat.le_refl _
  | case2 entry listed => exact List.length_erase_le
  | case3 entry next rest listed hmem ih =>
      rw [unmatched, if_pos hmem]
      exact Nat.le_trans ih List.length_erase_le
  | case4 entry next rest listed hnot ih => rwa [unmatched, if_neg hnot]

/-- In front of each entry that is passed over another one is removed. -/
theorem length_passedOver (cache listed : List Entry) :
    2 * (passedOver cache listed).length + listed.length ≤
      cache.length + (unmatched cache listed).length := by
  induction cache, listed using passedOver.induct with
  | case1 listed => simp [passedOver, unmatched]
  | case2 entry listed =>
      have hlength := List.le_length_erase (a := entry) (l := listed)
      simp only [passedOver, unmatched, List.length_nil, List.length_cons]
      omega
  | case3 entry next rest listed hmem ih =>
      have hlength := List.length_erase_of_mem hmem
      have hpos := List.length_pos_of_mem hmem
      rw [passedOver, unmatched, if_pos hmem, if_pos hmem, List.length_cons]
      omega
  | case4 entry next rest listed hnot ih =>
      rw [passedOver, unmatched, if_neg hnot, if_neg hnot]
      simp only [List.length_cons]
      omega

theorem two_mul_length_passedOver_le (cache listed : List Entry) :
    2 * (passedOver cache listed).length ≤ cache.length := by
  have hlength := length_passedOver cache listed
  have hle := length_unmatched_le cache listed
  omega

theorem count_unmatched_le (cache listed : List Entry) (other : Entry) :
    (unmatched cache listed).count other ≤
      (passedOver cache listed).count other + (listed.count other - cache.count other) := by
  induction cache, listed using passedOver.induct with
  | case1 listed => simp [passedOver, unmatched]
  | case2 entry listed => simp [passedOver, unmatched, List.count_erase, List.count_cons]
  | case3 entry next rest listed hmem ih =>
      rw [passedOver, unmatched, if_pos hmem, if_pos hmem]
      rw [List.count_erase] at ih
      rw [List.count_cons (b := entry)]
      omega
  | case4 entry next rest listed hnot ih =>
      rw [passedOver, unmatched, if_neg hnot, if_neg hnot]
      have hzero := List.count_eq_zero_of_not_mem hnot
      simp only [List.count_cons]
      by_cases hother : entry = other
      · subst hother
        omega
      · simp only [beq_iff_eq, hother, if_false]
        omega

/-- An entry that is listed, in the cache and not looked at has been passed over. -/
theorem unmatched_subperm {cache listed : List Entry} (hsub : listed.Subperm cache) :
    (unmatched cache listed).Subperm (passedOver cache listed) := by
  rw [List.subperm_iff_count]
  intro other
  have hcount := count_unmatched_le cache listed other
  have hle := hsub.count_le other
  omega

/-- Behind all listed entries every second entry is passed over. -/
theorem length_passedOver_append {kept listed : List Entry} (hperm : kept.Perm listed)
    (tail : List Entry) : 2 * (passedOver (kept ++ tail) listed).length ≤ tail.length := by
  induction kept generalizing listed with
  | nil =>
      rw [List.nil_append]
      exact two_mul_length_passedOver_le tail listed
  | cons entry kept ih =>
      have hmem : entry ∈ listed := hperm.subset List.mem_cons_self
      have hrest := ih ((List.cons_perm_iff_perm_erase.mp hperm).2)
      rw [List.cons_append]
      cases hcache : kept ++ tail with
      | nil => simp [passedOver]
      | cons next rest => rwa [passedOver, if_pos hmem, ← hcache]

/-! ## One update -/

/-- How far the cache is from what is listed. It counts twice what is too much, and one less
when all listed entries stand in front. -/
def disorder (cache listed : List Entry) : ℕ :=
  2 * (cache.length - listed.length) -
    if (cache.take listed.length).Perm listed then 1 else 0

section

variable {cache listed : List Entry} {processes : List Process}

theorem length_serviceUpdate (cache : List Entry)
    (hlisted : (localCache processes).Perm listed) :
    (serviceUpdate cache processes).length =
      listed.length + (passedOver cache (localCache processes)).length := by
  rw [(serviceUpdate_perm cache processes).length_eq, List.length_append, hlisted.length_eq]

theorem subperm_serviceUpdate (cache : List Entry)
    (hlisted : (localCache processes).Perm listed) :
    listed.Subperm (serviceUpdate cache processes) := by
  have hsub : (localCache processes).Subperm (serviceUpdate cache processes) :=
    ((List.sublist_append_left _ _).subperm).trans (serviceUpdate_perm cache processes).symm.subperm
  exact hlisted.symm.subperm.trans hsub

/-- An update leaves less, or it keeps one entry for each that is listed and adds as many
again as it has passed over. -/
theorem serviceUpdate_cases (hlisted : (localCache processes).Perm listed)
    (hsub : listed.Subperm cache) :
    (serviceUpdate cache processes).length < cache.length ∨
      (serviceUpdate cache processes).length = cache.length ∧
        ((serviceUpdate cache processes).take listed.length).Perm listed := by
  have hlength := length_serviceUpdate cache hlisted
  have hpassed := length_passedOver cache (localCache processes)
  have hunmatched := unmatched_subperm (hlisted.subperm.trans hsub)
  have hle := hunmatched.length_le
  rw [hlisted.length_eq] at hpassed
  rcases Nat.lt_or_ge (serviceUpdate cache processes).length cache.length with hless | hge
  · exact .inl hless
  -- as many are passed over as are not matched, and so they are the same ones
  · refine .inr ⟨by omega, ?_⟩
    have hperm : (unmatched cache (localCache processes)).Perm
        (passedOver cache (localCache processes)) := hunmatched.perm_of_length_le (by omega)
    have hkept : (compare 0 cache (localCache processes)).1.Perm (localCache processes) := by
      have hall := serviceUpdate_perm cache processes
      rw [serviceUpdate_eq] at hall
      exact (List.perm_append_right_iff _).mp (hall.trans (hperm.symm.append_left _))
    rw [serviceUpdate_eq, ← (hkept.trans hlisted).length_eq, List.take_left]
    exact hkept.trans hlisted

theorem disorder_serviceUpdate (hlisted : (localCache processes).Perm listed)
    (hsub : listed.Subperm cache) :
    disorder (serviceUpdate cache processes) listed ≤ disorder cache listed - 1 := by
  have hlength := length_serviceUpdate cache hlisted
  have hle := hsub.length_le
  unfold disorder
  rcases serviceUpdate_cases hlisted hsub with hless | ⟨hsame, harranged⟩
  · split
    · split <;> omega
    · split <;> omega
  · rw [if_pos harranged]
    split
    next hfront =>
      -- the listed entries stood in front already
      have htail := length_passedOver_append (hfront.trans hlisted.symm) (cache.drop listed.length)
      rw [List.take_append_drop, List.length_drop] at htail
      omega
    next => omega

theorem perm_of_disorder_eq_zero (hsub : listed.Subperm cache) (hzero : disorder cache listed = 0) :
    cache.Perm listed := by
  refine (hsub.perm_of_length_le ?_).symm
  unfold disorder at hzero
  split at hzero
  · omega
  · omega

/-! ## Every run -/

theorem disorder_foldl {later : List (List Process)}
    (hlater : ∀ processes ∈ later, (localCache processes).Perm listed)
    (hsub : listed.Subperm cache) :
    listed.Subperm (later.foldl serviceUpdate cache) ∧
      disorder (later.foldl serviceUpdate cache) listed ≤ disorder cache listed - later.length := by
  induction later generalizing cache with
  | nil => exact ⟨hsub, Nat.le_refl _⟩
  | cons processes rest ih =>
      obtain ⟨hlisted, hrest⟩ := List.forall_mem_cons.mp hlater
      have hstep := disorder_serviceUpdate hlisted hsub
      obtain ⟨hkept, hdisorder⟩ := ih hrest (subperm_serviceUpdate cache hlisted)
      refine ⟨hkept, ?_⟩
      rw [List.foldl_cons, List.length_cons]
      omega

/-- Whatever has been found before: once the same sockets are listening for more updates than
there are entries in the cache, the cache has exactly their entries, in whatever order they
are listed. -/
theorem cacheAfter_perm_of_settled (earlier : List (List Process))
    {later : List (List Process)} {processes : List Process}
    (hlater : ∀ other ∈ later, (localCache other).Perm (localCache processes))
    (hlong : (cacheAfter earlier).length < later.length) :
    (cacheAfter (earlier ++ later)).Perm (localCache processes) := by
  rw [cacheAfter, List.foldl_append, ← cacheAfter]
  generalize cacheAfter earlier = cache at hlong
  cases later with
  | nil => exact absurd hlong (Nat.not_lt_zero _)
  | cons first rest =>
      obtain ⟨hfirst, hrest⟩ := List.forall_mem_cons.mp hlater
      obtain ⟨hsub, hdisorder⟩ :=
        disorder_foldl hrest (subperm_serviceUpdate cache hfirst)
      have hlength := length_serviceUpdate cache hfirst
      have hpassed := two_mul_length_passedOver_le cache (localCache first)
      -- the first update brings in all that is listed, and passes over half the cache at most
      have hstart : disorder (serviceUpdate cache first) (localCache processes) ≤ cache.length := by
        unfold disorder
        omega
      rw [List.length_cons] at hlong
      rw [List.foldl_cons]
      exact perm_of_disorder_eq_zero hsub (by omega)

theorem cacheAfter_perm_of_settled_stopped :
    (cacheAfter ([[sshd, httpd]] ++ [[], [], []])).Perm (localCache []) :=
  cacheAfter_perm_of_settled [[sshd, httpd]] (by simp) (by
    simp [cacheAfter, serviceUpdate, compare, localCache, entryOf, sshd, httpd])

end

end Signpost.Discovery
