import Mathlib.Data.List.Induction
import Deduction.Error
import Deduction.Proofs.Collections
import Deduction.Proofs.Propositional

/-!
# Signatures

Connectives are added to a signature one at a time, and a connective is refused if its label belongs
to another one.  For a whole list of connectives that comes to one condition, whatever their order
and the portions in which they come: no label belongs to two connectives (`Consistent`).  What is
catalogued then are the first occurrences in the list.

`Collects` says this of a result and a list.  A result that is collected further may be replaced by
the list that it was collected from (`Collects.bind`).  So adding, merging and taking the signature
of a formula are all described by lists, and the laws of `Signature.catalogue_lawful` come down to
`[] ++ (as ++ bs) ++ cs = as ++ (bs ++ cs) ++ []`.
-/

namespace Deduction

namespace Signature

variable {s t u : Signature} {c d : Connective} {cs : List Connective}

/-! ## The index -/

theorem index_label {i : Nat} (h : s.connectives[i]? = some c) : s.index c.label = some i :=
  (s.indexed c.label i).mpr (by rw [h, Option.map_some])

/-- The index finds exactly the connectives of the list. -/
theorem get?_eq_some {label : String} :
    s.get? label = some c ↔ c ∈ s.connectives ∧ c.label = label := by
  rw [get?, Option.bind_eq_some_iff]
  constructor
  · rintro ⟨i, hi, hc⟩
    have hlabel := (s.indexed label i).mp hi
    rw [hc] at hlabel
    exact ⟨List.mem_of_getElem? hc, Option.some.inj hlabel⟩
  · rintro ⟨hmem, rfl⟩
    obtain ⟨i, hi⟩ := List.getElem?_of_mem hmem
    exact ⟨i, index_label hi, hi⟩

/-- A signature is determined by its list, as the index follows from it. -/
@[ext] theorem ext (h : s.connectives = t.connectives) : s = t := by
  have hindex : s.index = t.index := by
    funext label
    apply Option.ext
    intro i
    rw [s.indexed, t.indexed, h]
  cases s
  cases t
  simp_all

theorem nodup_labels (s : Signature) : (s.connectives.map Connective.label).Nodup := by
  rw [List.nodup_iff_getElem?_ne_getElem?]
  intro i j hij hj heq
  have hlabel := List.getElem?_eq_getElem hj
  rw [hlabel, List.getElem?_map] at heq
  rw [List.getElem?_map] at hlabel
  -- Two positions of one label would both be the position that the index has for it.
  have hi := (s.indexed _ i).mpr heq
  have hj := (s.indexed _ j).mpr hlabel
  have hsame : i = j := Option.some.inj (hi.symm.trans hj)
  omega

/-! ## Adding connectives -/

/-- No label belongs to two connectives of the list. -/
def Consistent (cs : List Connective) : Prop := ∀ c ∈ cs, ∀ d ∈ cs, c.label = d.label → c = d

theorem Consistent.mono {ds : List Connective} (h : Consistent ds) (hsub : cs ⊆ ds) :
    Consistent cs :=
  fun c hc d hd => h c (hsub hc) d (hsub hd)

theorem consistent (s : Signature) : Consistent s.connectives :=
  fun _ hc _ hd hlabel => List.inj_on_of_nodup_map s.nodup_labels hc hd hlabel

theorem nodup_connectives (s : Signature) : s.connectives.Nodup := s.nodup_labels.of_map

theorem add_of_mem (h : c ∈ s.connectives) : s.add c = .ok s := by
  obtain ⟨i, hi⟩ := List.getElem?_of_mem h
  have hindex : s.index c.label = some i := index_label hi
  unfold add
  split
  next j hj =>
    obtain rfl : i = j := Option.some.inj (hindex.symm.trans hj)
    rw [if_pos hi]
  next hnone => simp [hindex] at hnone

theorem add_of_clash (h : d ∈ s.connectives) (hlabel : d.label = c.label) (hne : d ≠ c) :
    s.add c = .error (.ambiguous c.label) := by
  obtain ⟨i, hi⟩ := List.getElem?_of_mem h
  have hindex : s.index c.label = some i := hlabel ▸ index_label hi
  unfold add
  split
  next j hj =>
    obtain rfl : i = j := Option.some.inj (hindex.symm.trans hj)
    rw [if_neg (by simp [hi, hne])]
  next hnone => simp [hindex] at hnone

theorem exists_add_of_new (h : ∀ d ∈ s.connectives, d.label ≠ c.label) :
    ∃ t, s.add c = .ok t ∧ t.connectives = s.connectives ++ [c] := by
  unfold add
  split
  next i hi =>
    obtain ⟨d, hd, hlabel⟩ := Option.map_eq_some_iff.mp ((s.indexed _ i).mp hi)
    exact absurd hlabel (h d (List.mem_of_getElem? hd))
  next => exact ⟨_, rfl, rfl⟩

/-- A connective is added if no other one has its label. -/
theorem exists_add (h : Consistent (s.connectives ++ [c])) :
    ∃ t, s.add c = .ok t ∧ t.connectives = appendNew s.connectives [c] := by
  by_cases hmem : c ∈ s.connectives
  · exact ⟨s, add_of_mem hmem, by simp [appendNew, hmem]⟩
  · have hnew : ∀ d ∈ s.connectives, d.label ≠ c.label := by
      intro d hd hlabel
      exact hmem (h d (by simp [hd]) c (by simp) hlabel ▸ hd)
    obtain ⟨t, ht, hconnectives⟩ := exists_add_of_new hnew
    exact ⟨t, ht, by simp [hconnectives, appendNew, hmem]⟩

theorem consistent_of_add (h : s.add c = .ok t) : Consistent (s.connectives ++ [c]) := by
  have hlabel : ∀ d ∈ s.connectives, d.label = c.label → d = c := by
    intro d hd hlabel
    by_contra hne
    rw [add_of_clash hd hlabel hne] at h
    cases h
  have hs := s.consistent
  unfold Consistent at *
  grind

/-! ## Collecting connectives -/

/-- The result is the signature of the connectives of the list in the order of their first
occurrence, provided that the list is consistent. -/
def Collects (r : Except SyntaxError Signature) (cs : List Connective) : Prop :=
  ∀ s, r = .ok s ↔ Consistent cs ∧ s.connectives = appendNew [] cs

theorem appendNew_nil_connectives (s : Signature) : appendNew [] s.connectives = s.connectives :=
  appendNew_eq_append s.nodup_connectives (by simp)

theorem collects_ok (s : Signature) : Collects (.ok s) s.connectives := by
  intro t
  rw [appendNew_nil_connectives]
  constructor
  · rintro ⟨⟩
    exact ⟨s.consistent, rfl⟩
  · rintro ⟨-, h⟩
    rw [Signature.ext h]

theorem collects_add (s : Signature) (c : Connective) :
    Collects (s.add c) (s.connectives ++ [c]) := by
  intro t
  rw [appendNew_append, appendNew_nil_connectives]
  constructor
  · intro h
    have hconsistent := consistent_of_add h
    obtain ⟨t', ht', hconnectives⟩ := exists_add hconsistent
    obtain rfl : t' = t := Except.ok.inj (ht'.symm.trans h)
    exact ⟨hconsistent, hconnectives⟩
  · rintro ⟨hconsistent, hconnectives⟩
    obtain ⟨t', ht', hconnectives'⟩ := exists_add hconsistent
    rw [ht', Signature.ext (hconnectives.trans hconnectives'.symm)]

/-- Every consistent list has a signature. -/
theorem exists_connectives_eq (h : Consistent cs) :
    ∃ s : Signature, s.connectives = appendNew [] cs := by
  induction cs using List.reverseRecOn with
  | nil => exact ⟨empty, rfl⟩
  | append_singleton cs c ih =>
    obtain ⟨s, hs⟩ := ih (h.mono (List.subset_append_left cs [c]))
    have hsub : s.connectives ++ [c] ⊆ cs ++ [c] := by
      intro d
      simp [hs]
    obtain ⟨t, -, ht⟩ := exists_add (h.mono hsub)
    exact ⟨t, by rw [ht, hs, ← appendNew_append]⟩

namespace Collects

variable {r r' : Except SyntaxError Signature} {f : Signature → Except SyntaxError Signature}

/-- A result that is collected further stands for the whole list that it was collected from. -/
theorem bind (as bs : List Connective) (h : Collects r cs)
    (hf : ∀ s, Collects (f s) (as ++ s.connectives ++ bs)) :
    Collects (r >>= f) (as ++ cs ++ bs) := by
  have hcatalogue : appendNew [] (as ++ appendNew [] cs ++ bs) = appendNew [] (as ++ cs ++ bs) := by
    simp only [appendNew_append, ← appendNew_assoc]
    rfl
  have hmem : ∀ c, c ∈ as ++ appendNew [] cs ++ bs ↔ c ∈ as ++ cs ++ bs := by simp
  intro u
  rw [except_bind_eq_ok]
  constructor
  · rintro ⟨s, hs, hu⟩
    obtain ⟨-, hs⟩ := (h s).mp hs
    obtain ⟨hconsistent, hu⟩ := (hf s u).mp hu
    rw [hs] at hconsistent hu
    exact ⟨hconsistent.mono fun c hc => (hmem c).mpr hc, hu.trans hcatalogue⟩
  · rintro ⟨hconsistent, hu⟩
    have hcs : Consistent cs := hconsistent.mono fun c hc => by simp [hc]
    obtain ⟨s, hs⟩ := exists_connectives_eq hcs
    refine ⟨s, (h s).mpr ⟨hcs, hs⟩, (hf s u).mpr ?_⟩
    rw [hs]
    exact ⟨hconsistent.mono fun c hc => (hmem c).mp hc, hu.trans hcatalogue.symm⟩

theorem exists_ok_iff (h : Collects r cs) : (∃ s, r = .ok s) ↔ Consistent cs := by
  constructor
  · rintro ⟨s, hs⟩
    exact ((h s).mp hs).1
  · intro hcs
    obtain ⟨s, hs⟩ := exists_connectives_eq hcs
    exact ⟨s, (h s).mpr ⟨hcs, hs⟩⟩

/-- What is collected from one list is the same, however it is collected. -/
theorem toOption_eq (h : Collects r cs) (h' : Collects r' cs) : r.toOption = r'.toOption := by
  apply Option.ext
  intro s
  have hr := (h s).trans (h' s).symm
  cases r <;> cases r' <;> simp_all [Except.toOption]

end Collects

theorem collects_addAll (s : Signature) (cs : List Connective) :
    Collects (s.addAll cs) (s.connectives ++ cs) := by
  induction cs generalizing s with
  | nil => simpa [addAll] using collects_ok s
  | cons c cs ih => simpa [addAll] using (collects_add s c).bind [] cs ih

theorem collects_merge (s t : Signature) :
    Collects (s.merge t) (s.connectives ++ t.connectives) :=
  collects_addAll s t.connectives

theorem empty_merge (s : Signature) : empty.merge s = .ok s :=
  (collects_merge empty s s).mpr ⟨s.consistent, (appendNew_nil_connectives s).symm⟩

theorem mergeAll_cons (s : Signature) (ts : List Signature) :
    mergeAll (s :: ts) = ts.foldlM merge s := by
  rw [mergeAll, List.foldlM_cons, empty_merge]
  rfl

theorem collects_ofFormula (φ : Formula) :
    Collects (ofFormula φ) (φ.preorder.map Formula.connective) := by
  rw [← Formula.subformulas_eq_preorder]
  exact collects_addAll empty _

/-- The signatures of formulas, merged into one. -/
theorem collects_mapM_ofFormula (s : Signature) (ts : List Formula) :
    Collects (ts.mapM ofFormula >>= fun parts => parts.foldlM merge s)
      (s.connectives ++ ts.flatMap fun t => t.preorder.map Formula.connective) := by
  induction ts generalizing s with
  | nil =>
    rw [List.flatMap_nil, List.append_nil]
    exact collects_ok s
  | cons t ts ih =>
    have hterm : Collects (ofFormula t >>= s.merge)
        (s.connectives ++ t.preorder.map Formula.connective ++ []) :=
      (collects_ofFormula t).bind s.connectives [] fun p => by simpa using collects_merge s p
    have hterms := hterm.bind [] (ts.flatMap fun t => t.preorder.map Formula.connective) ih
    intro u
    -- The parts are merged when all of them are there.  For the result that makes no difference.
    have horder : ((t :: ts).mapM ofFormula >>= fun parts => parts.foldlM merge s) = .ok u ↔
        ((ofFormula t >>= s.merge) >>= fun m =>
          ts.mapM ofFormula >>= fun parts => parts.foldlM merge m) = .ok u := by
      simp only [List.mapM_cons, except_bind_eq_ok]
      constructor
      · rintro ⟨_, ⟨p, hp, ps, hps, ⟨⟩⟩, hu⟩
        rw [List.foldlM_cons, except_bind_eq_ok] at hu
        obtain ⟨m, hm, hu⟩ := hu
        exact ⟨m, ⟨p, hp, hm⟩, ps, hps, hu⟩
      · rintro ⟨m, ⟨p, hp, hm⟩, ps, hps, hu⟩
        refine ⟨p :: ps, ⟨p, hp, ps, hps, rfl⟩, ?_⟩
        rw [List.foldlM_cons, except_bind_eq_ok]
        exact ⟨m, hm, hu⟩
    rw [horder, hterms u]
    simp

/-! ## Laws -/

theorem consistent_append_iff :
    Consistent (s.connectives ++ t.connectives) ↔
      ∀ label c d, s.get? label = some c → t.get? label = some d → c = d := by
  simp only [get?_eq_some]
  constructor
  · rintro h label c d ⟨hc, rfl⟩ ⟨hd, hlabel⟩
    exact h c (by simp [hc]) d (by simp [hd]) hlabel.symm
  · intro h c hc d hd hlabel
    rw [List.mem_append] at hc hd
    obtain hc | hc := hc <;> obtain hd | hd := hd
    · exact s.consistent c hc d hd hlabel
    · exact h _ c d ⟨hc, hlabel⟩ ⟨hd, rfl⟩
    · exact (h _ d c ⟨hd, hlabel.symm⟩ ⟨hc, rfl⟩).symm
    · exact t.consistent c hc d hd hlabel

/-- What is merged in are the connectives with new labels. -/
theorem connectives_of_merge (h : s.merge t = .ok u) :
    u.connectives =
      s.connectives ++ t.connectives.filter fun c => (s.get? c.label).isNone := by
  obtain ⟨hconsistent, hu⟩ := (collects_merge s t u).mp h
  rw [hu, appendNew_append, appendNew_nil_connectives,
    appendNew_of_nodup s.connectives t.nodup_connectives]
  congr 1
  apply List.filter_congr
  intro c hc
  have hlabel : c ∈ s.connectives ↔ (s.get? c.label).isSome := by
    rw [Option.isSome_iff_exists]
    simp only [get?_eq_some]
    constructor
    · intro hmem
      exact ⟨c, hmem, rfl⟩
    · rintro ⟨d, hd, hlabel⟩
      exact hconsistent d (by simp [hd]) c (by simp [hc]) hlabel ▸ hd
  simp only [hlabel]
  cases s.get? c.label <;> rfl

theorem merge_assoc (s t u : Signature) :
    (s.merge t >>= fun m => m.merge u).toOption = (t.merge u >>= fun m => s.merge m).toOption := by
  have hleft : Collects (s.merge t >>= fun m => m.merge u)
      ([] ++ (s.connectives ++ t.connectives) ++ u.connectives) :=
    (collects_merge s t).bind [] u.connectives fun m => collects_merge m u
  have hright : Collects (t.merge u >>= fun m => s.merge m)
      (s.connectives ++ (t.connectives ++ u.connectives) ++ []) :=
    (collects_merge t u).bind s.connectives [] fun m => by simpa using collects_merge s m
  apply hleft.toOption_eq
  simpa using hright

theorem ofFormula_eq_mergeAll (φ : Formula) :
    (ofFormula φ).toOption = (do
      let root ← empty.add φ.connective
      let parts ← φ.terms.mapM ofFormula
      mergeAll (root :: parts)).toOption := by
  obtain ⟨c, ts⟩ := φ
  have hmerged := (collects_add empty c).bind []
    (ts.flatMap fun t => t.preorder.map Formula.connective) fun root => by
      simpa only [List.nil_append] using collects_mapM_ofFormula root ts
  have hφ := collects_ofFormula (.node c ts)
  rw [Formula.preorder, Formula.preorderList_eq_flatMap, List.map_cons, List.map_flatMap] at hφ
  simp only [mergeAll_cons]
  exact hφ.toOption_eq hmerged

/-- The labels of a signature are distinct, and a label is looked up in the index to find the
connective that has it.  Two signatures can be merged exactly when no label finds different
connectives in them; then the connectives with new labels are appended, and with a third signature
it makes no difference which two are merged first.  A formula has a signature exactly when its nodes
with the same label have the same connective.  It lists the connectives in the order of their first
occurrence, and it is what the signatures of the root and of the terms are merged into. -/
theorem catalogue_lawful (s t u : Signature) (φ : Formula) :
    (s.connectives.map Connective.label).Nodup ∧
    (∀ label c, s.get? label = some c ↔ c ∈ s.connectives ∧ c.label = label) ∧
    ((∃ m, s.merge t = .ok m) ↔
      ∀ label c d, s.get? label = some c → t.get? label = some d → c = d) ∧
    (∀ m, s.merge t = .ok m → m.connectives =
      s.connectives ++ t.connectives.filter fun c => (s.get? c.label).isNone) ∧
    (s.merge t >>= fun m => m.merge u).toOption = (t.merge u >>= fun m => s.merge m).toOption ∧
    ((∃ m, ofFormula φ = .ok m) ↔ ∀ ψ ∈ φ.subformulas, ∀ χ ∈ φ.subformulas,
      ψ.connective.label = χ.connective.label → ψ.connective = χ.connective) ∧
    (∀ m, ofFormula φ = .ok m →
      let cs := φ.subformulas.map Formula.connective
      m.connectives = (cs.zipIdx.filter fun p => decide (p.1 ∉ cs.take p.2)).map fun p => p.1) ∧
    (ofFormula φ).toOption = (do
      let root ← empty.add φ.connective
      let parts ← φ.terms.mapM ofFormula
      mergeAll (root :: parts)).toOption := by
  have hφ := collects_ofFormula φ
  rw [← Formula.subformulas_eq_preorder] at hφ
  refine ⟨s.nodup_labels, fun label c => get?_eq_some,
    (collects_merge s t).exists_ok_iff.trans consistent_append_iff,
    fun m => connectives_of_merge, merge_assoc s t u, ?_, fun m hm => ?_, ofFormula_eq_mergeAll φ⟩
  · rw [hφ.exists_ok_iff]
    simp [Consistent]
  · exact ((hφ m).mp hm).2.trans (appendNew_nil_eq_selected _)

open Propositional in
/-- Two formulas share a connective and an atom, and their signatures can be merged.  An atom with
the label of another one has no place beside it. -/
theorem catalogue_lawful_shared :
    ∃ s t m, ofFormula (implies p (both q p)) = .ok s ∧ ofFormula (both r q) = .ok t ∧
      s.connectives.map Connective.label = ["implies", "P", "and", "Q"] ∧
      s.get? "and" = some (both r q).connective ∧ s.merge t = .ok m ∧
      m.connectives =
        s.connectives ++ t.connectives.filter (fun c => (s.get? c.label).isNone) ∧
      ¬ ∃ u, ofFormula (both p (atom 9 "P")) = .ok u := by
  have hfirst := catalogue_lawful empty empty empty (implies p (both q p))
  have hsecond := catalogue_lawful empty empty empty (both r q)
  have hclash := catalogue_lawful empty empty empty (both p (atom 9 "P"))
  simp only [Formula.subformulas_eq_preorder] at hfirst hsecond hclash
  obtain ⟨-, -, -, -, -, hexists, hcatalogue, -⟩ := hfirst
  obtain ⟨s, hs⟩ := hexists.mpr (by decide)
  have hscatalogue := hcatalogue s hs
  obtain ⟨-, -, -, -, -, hexists, hcatalogue, -⟩ := hsecond
  obtain ⟨t, ht⟩ := hexists.mpr (by decide)
  have htcatalogue := hcatalogue t ht
  have hshared : ∀ c ∈ s.connectives, ∀ d ∈ t.connectives, c.label = d.label → c = d := by
    rw [hscatalogue, htcatalogue]
    decide
  obtain ⟨-, hget, hmerge, hmerged, -⟩ := catalogue_lawful s t empty (both r q)
  obtain ⟨-, hget', -⟩ := catalogue_lawful t s empty (both r q)
  obtain ⟨m, hm⟩ := hmerge.mpr fun label c d hc hd => by
    obtain ⟨hcs, hlabel⟩ := (hget label c).mp hc
    obtain ⟨hdt, hlabel'⟩ := (hget' label d).mp hd
    exact hshared c hcs d hdt (hlabel.trans hlabel'.symm)
  refine ⟨s, t, m, hs, ht, ?_, (hget "and" _).mpr ⟨?_, rfl⟩, hm, hmerged m hm, fun h => ?_⟩
  · rw [hscatalogue]
    decide
  · rw [hscatalogue]
    decide
  · exact absurd (hclash.2.2.2.2.2.1.mp h) (by decide)

end Signature

end Deduction
