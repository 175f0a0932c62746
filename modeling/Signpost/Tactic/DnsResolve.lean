import Mathlib.Data.Fintype.Card
import Mathlib.Data.Set.Finite.List
import Mathlib.Logic.Relation
import Signpost.Tactic.Provisions

/-! # Resolving a name

The DNS tactic asks a resolver for the addresses of a name and follows the
aliases in the answer. The truth that it provides has the addresses as its value
and is kept as long as the TTLs of the address records allow.
-/

namespace Signpost.DnsResolve

open Provisions (Answer minTtl)

/-- A resource record in the answer of a resolver. -/
inductive Record
  | cname (value : String) (ttl : Int)
  | address (ip : String) (ttl : Int)
deriving DecidableEq, Repr

def Record.ttl : Record → Int
  | cname _ ttl => ttl
  | address _ ttl => ttl

/-- The answers to the records of one response, in one flat list. It is there
when each of them is. -/
def gather (answers : Record → Option (List Answer)) : List Record → Option (List Answer)
  | [] => some []
  | record :: rest => do
      let first ← answers record
      let others ← gather answers rest
      return first ++ others

def answersOf (follow : String → Option (List Answer)) : Record → Option (List Answer)
  | .cname value _ => follow value
  | .address ip ttl => some [⟨ip, some ttl⟩]

variable (send : String → List Record)

/-- `do_it` and `flatten`, where `send` is the resolver. The fuel bounds the
depth of the recursion, and `none` means that it is used up. -/
def doIt : ℕ → String → Option (List Answer)
  | 0, _ => none
  | fuel + 1, domain => gather (answersOf (doIt fuel)) (send domain)

def resolve (fuel : ℕ) (domain : String) : Option (Option Int × List String) :=
  (doIt send fuel domain).map Provisions.resolve

/-! ## Aliases -/

def Alias (name value : String) : Prop := ∃ ttl, .cname value ttl ∈ send name

def Reaches : String → String → Prop := Relation.ReflTransGen (Alias send)

/-- An address record that aliases lead to. -/
def HasAddress (domain ip : String) (ttl : Int) : Prop :=
  ∃ name, Reaches send domain name ∧ .address ip ttl ∈ send name

/-- The records on a path from the domain to an address. -/
inductive OnPath (domain : String) : Record → Prop
  | address (ip : String) (ttl : Int) (haddress : HasAddress send domain ip ttl) :
      OnPath domain (.address ip ttl)
  | cname (name value ip : String) (ttl least : Int) (hreaches : Reaches send domain name)
      (hrecord : .cname value ttl ∈ send name) (haddress : HasAddress send value ip least) :
      OnPath domain (.cname value ttl)

variable {send}

theorem hasAddress_iff (domain ip : String) (ttl : Int) :
    HasAddress send domain ip ttl ↔
      .address ip ttl ∈ send domain ∨
        ∃ value, Alias send domain value ∧ HasAddress send value ip ttl := by
  constructor
  · rintro ⟨name, hreaches, hrecord⟩
    rcases Relation.ReflTransGen.cases_head hreaches with rfl | ⟨value, halias, hrest⟩
    · exact .inl hrecord
    · exact .inr ⟨value, halias, name, hrest, hrecord⟩
  · rintro (hrecord | ⟨value, halias, name, hreaches, hrecord⟩)
    · exact ⟨domain, .refl, hrecord⟩
    · exact ⟨name, .head halias hreaches, hrecord⟩

/-! ## The answers -/

theorem mem_of_gather {follow : Record → Option (List Answer)} {records : List Record}
    {answers : List Answer} (hgather : gather follow records = some answers) (answer : Answer) :
    answer ∈ answers ↔ ∃ record ∈ records, ∃ own, follow record = some own ∧ answer ∈ own := by
  induction records generalizing answers with
  | nil =>
      obtain rfl := Option.some.inj hgather
      simp
  | cons record rest ih =>
      simp only [gather, Option.bind_eq_bind, Option.bind_eq_some_iff, Option.pure_def,
        Option.some.injEq] at hgather
      obtain ⟨first, hfirst, others, hothers, rfl⟩ := hgather
      simp [List.mem_append, ih hothers, hfirst]

theorem gather_isSome_iff (follow : Record → Option (List Answer)) (records : List Record) :
    (gather follow records).isSome ↔ ∀ record ∈ records, (follow record).isSome := by
  induction records with
  | nil => simp [gather]
  | cons record rest ih =>
      rw [List.forall_mem_cons, ← ih, gather]
      cases follow record <;> cases gather follow rest <;> simp

/-- What comes back is one answer for each address record that aliases lead to. -/
theorem mem_of_doIt {fuel : ℕ} {domain : String} {answers : List Answer}
    (hdo : doIt send fuel domain = some answers) (answer : Answer) :
    answer ∈ answers ↔ ∃ ip ttl, answer = ⟨ip, some ttl⟩ ∧ HasAddress send domain ip ttl := by
  induction fuel generalizing domain answers with
  | zero => cases hdo
  | succ fuel ih =>
      rw [doIt] at hdo
      have hown : ∀ record ∈ send domain, ∃ own,
          answersOf (doIt send fuel) record = some own := by
        intro record hrecord
        have hsome := (gather_isSome_iff _ _).mp (Option.isSome_of_eq_some hdo) record hrecord
        exact Option.isSome_iff_exists.mp hsome
      rw [mem_of_gather hdo]
      constructor
      · rintro ⟨record, hrecord, own, hanswers, hanswer⟩
        cases record with
        | cname value ttl =>
            obtain ⟨ip, least, rfl, haddress⟩ := (ih hanswers).mp hanswer
            have halias : Alias send domain value := ⟨ttl, hrecord⟩
            exact ⟨ip, least, rfl, (hasAddress_iff _ _ _).mpr (.inr ⟨value, halias, haddress⟩)⟩
        | address ip ttl =>
            obtain rfl := Option.some.inj hanswers
            obtain rfl := List.mem_singleton.mp hanswer
            exact ⟨ip, ttl, rfl, (hasAddress_iff _ _ _).mpr (.inl hrecord)⟩
      · rintro ⟨ip, ttl, rfl, haddress⟩
        rcases (hasAddress_iff _ _ _).mp haddress with hrecord | ⟨value, ⟨life, hrecord⟩, hrest⟩
        · exact ⟨_, hrecord, _, rfl, List.mem_singleton_self _⟩
        · obtain ⟨own, hanswers⟩ := hown _ hrecord
          exact ⟨_, hrecord, own, hanswers, (ih hanswers).mpr ⟨ip, ttl, rfl, hrest⟩⟩

/-! ## Enough fuel -/

theorem doIt_isSome_iff (fuel : ℕ) (domain : String) :
    (doIt send (fuel + 1) domain).isSome ↔
      ∀ value, Alias send domain value → (doIt send fuel value).isSome := by
  rw [doIt, gather_isSome_iff]
  constructor
  · rintro hall value ⟨ttl, hrecord⟩
    exact hall _ hrecord
  · intro hall record hrecord
    cases record with
    | cname value ttl => exact hall value ⟨ttl, hrecord⟩
    | address ip ttl => rfl

theorem gather_mono {follow more : Record → Option (List Answer)} {records : List Record}
    (hmore : ∀ record own, follow record = some own → more record = some own)
    {answers : List Answer} (hgather : gather follow records = some answers) :
    gather more records = some answers := by
  induction records generalizing answers with
  | nil => exact hgather
  | cons record rest ih =>
      simp only [gather, Option.bind_eq_bind, Option.bind_eq_some_iff] at hgather ⊢
      obtain ⟨first, hfirst, others, hothers, hanswers⟩ := hgather
      exact ⟨first, hmore record first hfirst, others, ih hothers, hanswers⟩

theorem doIt_succ {fuel : ℕ} {domain : String} {answers : List Answer}
    (hdo : doIt send fuel domain = some answers) :
    doIt send (fuel + 1) domain = some answers := by
  induction fuel generalizing domain answers with
  | zero => cases hdo
  | succ fuel ih =>
      refine gather_mono ?_ hdo
      intro record own hown
      cases record with
      | cname value ttl => exact ih hown
      | address ip ttl => exact hown

theorem doIt_mono {fuel more : ℕ} (hle : fuel ≤ more) {domain : String} {answers : List Answer}
    (hdo : doIt send fuel domain = some answers) : doIt send more domain = some answers := by
  induction hle with
  | refl => exact hdo
  | step _ ih => exact doIt_succ ih

theorem resolve_mono {fuel more : ℕ} (hle : fuel ≤ more) {domain : String}
    {result : Option Int × List String} (hresolve : resolve send fuel domain = some result) :
    resolve send more domain = some result := by
  obtain ⟨answers, hdo, rfl⟩ := Option.map_eq_some_iff.mp hresolve
  rw [resolve, doIt_mono hle hdo, Option.map_some]

theorem doIt_isSome_mono {fuel more : ℕ} (hle : fuel ≤ more) {domain : String}
    (hsome : (doIt send fuel domain).isSome) : (doIt send more domain).isSome := by
  obtain ⟨answers, hdo⟩ := Option.isSome_iff_exists.mp hsome
  exact Option.isSome_of_eq_some (doIt_mono hle hdo)

/-- The names that a name is an alias for can be walked through with a common
amount of fuel, since a response is finite. -/
theorem exists_fuel_of_aliases {domain : String}
    (haliases : ∀ value, Alias send domain value → ∃ fuel, (doIt send fuel value).isSome) :
    ∃ fuel, (doIt send fuel domain).isSome := by
  have hcommon : ∀ records : List Record, (∀ record ∈ records, record ∈ send domain) →
      ∃ fuel, ∀ value ttl, .cname value ttl ∈ records → (doIt send fuel value).isSome := by
    intro records
    induction records with
    | nil => exact fun _ => ⟨0, fun _ _ hrecord => absurd hrecord List.not_mem_nil⟩
    | cons record rest ih =>
        intro hrecords
        rw [List.forall_mem_cons] at hrecords
        obtain ⟨fuel, hfuel⟩ := ih hrecords.2
        have hfirst : ∃ own, ∀ value ttl, .cname value ttl = record →
            (doIt send own value).isSome := by
          cases record with
          | address ip ttl => exact ⟨0, fun _ _ heq => by cases heq⟩
          | cname value ttl =>
              obtain ⟨own, hown⟩ := haliases value ⟨ttl, hrecords.1⟩
              refine ⟨own, fun other _ heq => ?_⟩
              cases heq
              exact hown
        obtain ⟨own, hown⟩ := hfirst
        refine ⟨max own fuel, fun value ttl hrecord => ?_⟩
        rcases List.mem_cons.mp hrecord with heq | hrest
        · exact doIt_isSome_mono (le_max_left _ _) (hown value ttl heq)
        · exact doIt_isSome_mono (le_max_right _ _) (hfuel value ttl hrest)
  obtain ⟨fuel, hfuel⟩ := hcommon (send domain) fun _ hrecord => hrecord
  refine ⟨fuel + 1, (doIt_isSome_iff fuel domain).mpr ?_⟩
  rintro value ⟨ttl, hrecord⟩
  exact hfuel value ttl hrecord

instance finiteChar : Finite Char := by
  refine Finite.of_surjective (fun n : Fin 0x110000 => Char.ofNat n) fun c => ?_
  have hlt : c.toNat < 0x110000 := by
    rcases c.valid with hlow | ⟨_, hhigh⟩
    · exact hlow.trans (by decide)
    · exact hhigh
  exact ⟨⟨c.toNat, hlt⟩, Char.ofNat_toNat c⟩

theorem finite_names (bound : ℕ) : Finite {name : String // name.length ≤ bound} := by
  have hlists : Finite {l : List Char // l.length ≤ bound} :=
    (List.finite_length_le Char bound).to_subtype
  refine Finite.of_injective (fun name : {name : String // name.length ≤ bound} =>
    (⟨name.1.toList, by rw [String.length_toList]; exact name.2⟩ :
      {l : List Char // l.length ≤ bound})) ?_
  intro one other heq
  exact Subtype.ext (String.toList_inj.mp (congrArg Subtype.val heq))

/-- Without a cycle a recursion through names of bounded length ends. -/
theorem exists_fuel (hacyclic : ∀ name, ¬ Relation.TransGen (Alias send) name name)
    {bound : ℕ} (hnames : ∀ name value, Alias send name value → value.length ≤ bound)
    (domain : String) : ∃ fuel, (doIt send fuel domain).isSome := by
  let follows := fun value name : {name : String // name.length ≤ bound} =>
    Relation.TransGen (Alias send) name.1 value.1
  have hfinite := finite_names bound
  have : IsTrans _ follows := ⟨fun _ _ _ hone hother => hother.trans hone⟩
  have : Std.Irrefl follows := ⟨fun name => hacyclic name.1⟩
  have hwf : WellFounded follows := Finite.wellFounded_of_trans_of_irrefl follows
  have hbounded : ∀ name : {name : String // name.length ≤ bound},
      ∃ fuel, (doIt send fuel name.1).isSome := by
    intro name
    induction name using hwf.induction with
    | _ name ih =>
        apply exists_fuel_of_aliases
        intro value halias
        exact ih ⟨value, hnames _ _ halias⟩ (.single halias)
  apply exists_fuel_of_aliases
  intro value halias
  exact hbounded ⟨value, hnames _ _ halias⟩

/-! ## The TTL -/

theorem foldl_minTtl (start : Int) (answers : List Answer) :
    ∃ least, answers.foldl minTtl (some start) = some least ∧
      (least = start ∨ ∃ answer ∈ answers, answer.ttl = some least) ∧ least ≤ start ∧
      ∀ answer ∈ answers, ∀ ttl, answer.ttl = some ttl → least ≤ ttl := by
  induction answers generalizing start with
  | nil => exact ⟨start, rfl, .inl rfl, le_refl _, fun _ hanswer => absurd hanswer List.not_mem_nil⟩
  | cons answer rest ih =>
      rw [List.foldl_cons]
      cases httl : answer.ttl with
      | none =>
          obtain ⟨least, hfold, hfrom, hle, hall⟩ := ih start
          have hstep : minTtl (some start) answer = some start := by simp only [minTtl, httl]
          refine ⟨least, by rw [hstep]; exact hfold, ?_, hle, ?_⟩
          · exact hfrom.imp_right fun ⟨other, hother, hown⟩ =>
              ⟨other, List.mem_cons_of_mem _ hother, hown⟩
          · exact List.forall_mem_cons.mpr ⟨fun ttl hsome => by simp [httl] at hsome, hall⟩
      | some ttl =>
          obtain ⟨least, hfold, hfrom, hle, hall⟩ := ih (if ttl < start then ttl else start)
          have hboth : least ≤ ttl ∧ least ≤ start := by
            split at hle <;> omega
          have hstep : minTtl (some start) answer = some (if ttl < start then ttl else start) := by
            simp only [minTtl, httl]
          refine ⟨least, by rw [hstep]; exact hfold, ?_, hboth.2, ?_⟩
          · rcases hfrom with heq | ⟨other, hother, hown⟩
            · by_cases hlt : ttl < start
              · rw [if_pos hlt] at heq
                exact .inr ⟨answer, List.mem_cons_self, by rw [httl, heq]⟩
              · rw [if_neg hlt] at heq
                exact .inl heq
            · exact .inr ⟨other, List.mem_cons_of_mem _ hother, hown⟩
          · refine List.forall_mem_cons.mpr ⟨fun life hsome => ?_, hall⟩
            obtain rfl := Option.some.inj (httl.symm.trans hsome)
            exact hboth.1

/-- The TTL of the truth is the least one of the address records. -/
theorem resolve_ttl_of_hasAddress {fuel : ℕ} {domain : String} {answers : List Answer}
    (hdo : doIt send fuel domain = some answers) (hnonempty : answers ≠ []) :
    ∃ least, (Provisions.resolve answers).1 = some least ∧
      (∃ ip, HasAddress send domain ip least) ∧
      ∀ ip ttl, HasAddress send domain ip ttl → least ≤ ttl := by
  obtain ⟨first, rest, rfl⟩ := List.exists_cons_of_ne_nil hnonempty
  obtain ⟨ip, start, rfl, hfirst⟩ := (mem_of_doIt hdo first).mp List.mem_cons_self
  obtain ⟨least, hfold, hfrom, hle, hall⟩ := foldl_minTtl start rest
  refine ⟨least, hfold, ?_, ?_⟩
  · rcases hfrom with rfl | ⟨answer, hanswer, hown⟩
    · exact ⟨ip, hfirst⟩
    · obtain ⟨other, ttl, rfl, haddress⟩ :=
        (mem_of_doIt hdo answer).mp (List.mem_cons_of_mem _ hanswer)
      obtain rfl := Option.some.inj hown
      exact ⟨other, haddress⟩
  · intro other ttl haddress
    rcases List.mem_cons.mp ((mem_of_doIt hdo _).mpr ⟨other, ttl, rfl, haddress⟩) with heq | hrest
    · obtain rfl := Option.some.inj (Answer.mk.inj heq).2
      exact hle
    · exact hall _ hrest ttl rfl

theorem nodup_eraseDups (ips : List String) : ips.eraseDups.Nodup := by
  induction hlength : ips.length using Nat.strongRecOn generalizing ips with
  | ind n ih =>
      cases ips with
      | nil => exact List.nodup_nil
      | cons ip rest =>
          rw [List.eraseDups_cons, List.nodup_cons]
          refine ⟨by simp [List.mem_eraseDups], ih _ ?_ _ rfl⟩
          rw [← hlength, List.length_cons]
          exact Nat.lt_succ_of_le (List.length_filter_le _ _)

/-- The tactic gets the addresses of the domain, each of them once, and a TTL
that no record on the way to one of them falls short of. -/
structure Resolved (send : String → List Record) (domain : String) (ttl : Option Int)
    (ips : List String) : Prop where
  nodup : ips.Nodup
  mem_iff : ∀ ip, ip ∈ ips ↔ ∃ life, HasAddress send domain ip life
  ttl_le : ips ≠ [] → ∃ least, ttl = some least ∧
    ∀ record, OnPath send domain record → least ≤ record.ttl

/-- With enough fuel, `resolve` returns such a result. -/
def ResolvesProperly (send : String → List Record) (domain : String) : Prop :=
  ∃ ttl ips, (∃ fuel, ∀ more ≥ fuel, resolve send more domain = some (ttl, ips)) ∧
    Resolved send domain ttl ips

/-- Every alias on the way to an address can be kept at least as long as one of
the address records. -/
def AliasesOutlive (send : String → List Record) (domain : String) : Prop :=
  ∀ name value ttl, Reaches send domain name → .cname value ttl ∈ send name →
    (∃ ip life, HasAddress send value ip life) →
      ∃ ip life, HasAddress send domain ip life ∧ life ≤ ttl

/-- What comes back is right whatever the aliases, but for the TTL. -/
theorem resolved_iff {fuel : ℕ} {domain : String} {answers : List Answer}
    (hdo : doIt send fuel domain = some answers) :
    Resolved send domain (Provisions.resolve answers).1 (Provisions.resolve answers).2 ↔
      AliasesOutlive send domain := by
  have hmem : ∀ ip, ip ∈ (Provisions.resolve answers).2 ↔
      ∃ life, HasAddress send domain ip life := by
    intro ip
    rw [Provisions.resolve, List.mem_eraseDups, List.mem_map]
    constructor
    · rintro ⟨answer, hanswer, rfl⟩
      obtain ⟨ip, ttl, rfl, haddress⟩ := (mem_of_doIt hdo answer).mp hanswer
      exact ⟨ttl, haddress⟩
    · rintro ⟨ttl, haddress⟩
      exact ⟨⟨ip, some ttl⟩, (mem_of_doIt hdo _).mpr ⟨ip, ttl, rfl, haddress⟩, rfl⟩
  constructor
  · intro hresolved name value ttl hreaches hrecord hexists
    obtain ⟨ip, life, haddress⟩ := hexists
    have hown : HasAddress send domain ip life := by
      obtain ⟨last, hrest, hlast⟩ := haddress
      exact ⟨last, hreaches.trans (.head ⟨ttl, hrecord⟩ hrest), hlast⟩
    have hanswers : answers ≠ [] :=
      List.ne_nil_of_mem ((mem_of_doIt hdo _).mpr ⟨ip, life, rfl, hown⟩)
    obtain ⟨least, hleast, ⟨other, hother⟩, -⟩ := resolve_ttl_of_hasAddress hdo hanswers
    obtain ⟨same, hsame, hall⟩ := hresolved.ttl_le
      (List.ne_nil_of_mem ((hmem ip).mpr ⟨life, hown⟩))
    obtain rfl := Option.some.inj (hleast.symm.trans hsame)
    exact ⟨other, least, hother, hall _ (.cname name value ip ttl life hreaches hrecord haddress)⟩
  · intro houtlive
    refine ⟨nodup_eraseDups _, hmem, fun hips => ?_⟩
    have hanswers : answers ≠ [] := by
      rintro rfl
      exact hips rfl
    obtain ⟨least, hleast, -, hall⟩ := resolve_ttl_of_hasAddress hdo hanswers
    refine ⟨least, hleast, fun record hpath => ?_⟩
    cases hpath with
    | address ip ttl haddress => exact hall ip ttl haddress
    | cname name value ip ttl life hreaches hrecord haddress =>
        obtain ⟨other, own, hother, hle⟩ :=
          houtlive name value ttl hreaches hrecord ⟨ip, life, haddress⟩
        exact (hall other own hother).trans hle

/-- The resolution of a name ends, and its TTL is right exactly when no alias on
the way to an address expires before all of the address records. -/
theorem resolvesProperly_iff {send : String → List Record}
    (hacyclic : ∀ name, ¬ Relation.TransGen (Alias send) name name) {bound : ℕ}
    (hnames : ∀ name value, Alias send name value → value.length ≤ bound) (domain : String) :
    ResolvesProperly send domain ↔ AliasesOutlive send domain := by
  obtain ⟨fuel, hsome⟩ := exists_fuel hacyclic hnames domain
  obtain ⟨answers, hdo⟩ := Option.isSome_iff_exists.mp hsome
  have hreturns : ∀ more ≥ fuel, resolve send more domain = some (Provisions.resolve answers) :=
    fun more hle => resolve_mono hle (by rw [resolve, hdo, Option.map_some])
  rw [← resolved_iff hdo]
  constructor
  · rintro ⟨ttl, ips, ⟨own, hown⟩, hresolved⟩
    have hsame := (hown (max own fuel) (le_max_left _ _)).symm.trans
      (hreturns (max own fuel) (le_max_right _ _))
    rwa [← Option.some.inj hsame]
  · intro hresolved
    exact ⟨_, _, ⟨fuel, hreturns⟩, hresolved⟩

/-! ## An alias that is kept too long -/

/-- The alias of a service moves every minute, the address that it points to is
kept for a day. -/
def serviceRecords : String → List Record
  | "www.kle.io" => [.cname "web.kle.io" 60]
  | "web.kle.io" => [.address "10.0.0.1" 86400]
  | _ => []

theorem alias_serviceRecords {name value : String} (halias : Alias serviceRecords name value) :
    name = "www.kle.io" ∧ value = "web.kle.io" := by
  obtain ⟨ttl, hrecord⟩ := halias
  unfold serviceRecords at hrecord
  split at hrecord <;> simp_all

theorem acyclic_serviceRecords (name : String) :
    ¬ Relation.TransGen (Alias serviceRecords) name name := by
  intro hcycle
  obtain ⟨value, hfirst, hrest⟩ := Relation.TransGen.head'_iff.mp hcycle
  obtain ⟨rfl, rfl⟩ := alias_serviceRecords hfirst
  rcases Relation.ReflTransGen.cases_head hrest with heq | ⟨other, hsecond, -⟩
  · exact absurd heq (by decide)
  · exact absurd (alias_serviceRecords hsecond).1 (by decide)

theorem length_serviceRecords (name value : String) (halias : Alias serviceRecords name value) :
    value.length ≤ 10 := by
  obtain ⟨-, rfl⟩ := alias_serviceRecords halias
  decide

theorem resolvesProperly_iff_of_service :
    Alias serviceRecords "www.kle.io" "web.kle.io" ∧
      (ResolvesProperly serviceRecords "www.kle.io" ↔ AliasesOutlive serviceRecords "www.kle.io") :=
  ⟨⟨60, by decide⟩,
    resolvesProperly_iff acyclic_serviceRecords length_serviceRecords "www.kle.io"⟩

theorem not_resolvesProperly_of_service :
    ¬ ∀ (send : String → List Record) (bound : ℕ),
      (∀ name, ¬ Relation.TransGen (Alias send) name name) →
        (∀ name value, Alias send name value → value.length ≤ bound) →
          ∀ domain, ResolvesProperly send domain := by
  intro hclaim
  obtain ⟨ttl, ips, ⟨fuel, hfuel⟩, hresolved⟩ := hclaim serviceRecords 10 acyclic_serviceRecords
    length_serviceRecords "www.kle.io"
  have hresult : resolve serviceRecords 2 "www.kle.io" = some (some 86400, ["10.0.0.1"]) := by
    decide
  obtain ⟨rfl, rfl⟩ := Prod.mk.inj (Option.some.inj
    ((hfuel _ (le_max_left fuel 2)).symm.trans (resolve_mono (le_max_right fuel 2) hresult)))
  obtain ⟨least, hleast, hall⟩ := hresolved.ttl_le (by decide)
  obtain rfl := Option.some.inj hleast
  have halias : OnPath serviceRecords "www.kle.io" (.cname "web.kle.io" 60) :=
    .cname "www.kle.io" "web.kle.io" "10.0.0.1" 60 86400 .refl (by decide)
      ⟨"web.kle.io", .refl, by decide⟩
  exact absurd (hall _ halias) (by decide)

end Signpost.DnsResolve
