import Mathlib.Data.List.Zip
import Mathlib.Logic.Function.Basic
import Deduction.Proofs.Enumerations
import Deduction.Proofs.SubstitutionAlgebra

/-!
# Maps as finite partial functions

A map keeps its keys and its images in two lists, and every change of it filters both and may append
to them.  What counts is the partial function that lookups by position compute.  One change of the
map is one change of that function (`Map.Change.get?_apply`), so a history of changes can be
replayed on the function alone, starting from the pairs that the map was made of
(`Map.changes_replay`).

A map can be inverted when its images do not repeat.  The inverse has the swapped pairs in the same
order, so that it looks up backwards what the map looks up, and its own inverse is the map again
(`Map.inverse_swaps`).
-/

namespace Deduction

/-! ## Histories of changes -/

namespace Lookup

/-- The partial function that sends the key of the pair to its image and everything else as
before. -/
def override (f : Lookup) (p : Formula × Formula) : Lookup := Function.update f p.1 (some p.2)

/-- The partial function that the pairs make one after the other, starting from nothing. -/
def ofPairs (pairs : List (Formula × Formula)) : Lookup := pairs.foldl override fun _ => none

theorem foldl_override_of_notMem {pairs : List (Formula × Formula)} {key : Formula}
    (h : key ∉ pairs.map Prod.fst) (f : Lookup) : pairs.foldl override f key = f key := by
  induction pairs generalizing f with
  | nil => rfl
  | cons p pairs ih =>
    obtain ⟨hp, hpairs⟩ : key ≠ p.1 ∧ key ∉ pairs.map Prod.fst := by simpa using h
    rw [List.foldl_cons, ih hpairs, override, Function.update_of_ne hp]

/-- Without repeated keys it does not matter that a later pair overrides an earlier one. -/
theorem foldl_override_of_nodup {pairs : List (Formula × Formula)}
    (h : (pairs.map Prod.fst).Nodup) (f : Lookup) (key : Formula) :
    pairs.foldl override f key = (firstOf pairs key).or (f key) := by
  induction pairs generalizing f with
  | nil => rfl
  | cons p pairs ih =>
    obtain ⟨hp, hpairs⟩ : p.1 ∉ pairs.map Prod.fst ∧ (pairs.map Prod.fst).Nodup :=
      List.nodup_cons.mp h
    rw [List.foldl_cons]
    by_cases hkey : p.1 = key
    · subst hkey
      rw [foldl_override_of_notMem hp, override, Function.update_self]
      simp [firstOf]
    · rw [ih hpairs, override, Function.update_of_ne (Ne.symm hkey)]
      simp [firstOf, hkey]

end Lookup

namespace Map

theorem get?_ofPairs {pairs : List (Formula × Formula)} {m : Map} (h : ofPairs pairs = .ok m) :
    m.get? = Lookup.ofPairs pairs := by
  obtain rfl := ofPairs_eq_ok.mp h
  funext key
  rw [Lookup.ofPairs, Lookup.foldl_override_of_nodup m.nodup, Lookup.firstOf_map, Option.or_none]

/-- A change of a map. -/
inductive Change where
  | withPair (key image : Formula)
  | without (key : Formula)
  | restrict (keys : List Formula)

namespace Change

/-- The map after the change. -/
def apply (m : Map) : Change → Map
  | withPair key image => m.withPair key image
  | without key => m.without key
  | restrict keys => m.restrict keys

/-- The change of a partial function: it is overridden at one key, undefined at one key, or left
undefined outside of the keys. -/
def replay (f : Lookup) : Change → Lookup
  | withPair key image => f.override (key, image)
  | without key => Function.update f key none
  | restrict keys => fun key => if key ∈ keys then f key else none

end Change

theorem get?_without (m : Map) (key : Formula) :
    (m.without key).get? = Function.update m.get? key none := by
  funext k
  rw [without, get?_filter]
  by_cases hk : k = key
  · simp [hk]
  · simp [hk, Function.update_of_ne]

theorem get?_withPair (m : Map) (key image : Formula) :
    (m.withPair key image).get? = Lookup.override m.get? (key, image) := by
  funext k
  apply Option.ext
  intro found
  rw [get?_eq_some, mem_withPair, Lookup.override]
  by_cases hk : k = key
  · subst hk
    simp [eq_comm]
  · simp [hk, get?_eq_some]

/-- One change of the map is one change of what it looks up. -/
theorem Change.get?_apply (c : Change) (m : Map) : (c.apply m).get? = c.replay m.get? := by
  cases c with
  | withPair key image => exact get?_withPair m key image
  | without key => exact get?_without m key
  | restrict keys => exact funext (get?_restrict m keys)

theorem get?_changes (changes : List Change) (m : Map) :
    (changes.foldl Change.apply m).get? = changes.foldl Change.replay m.get? := by
  induction changes generalizing m with
  | nil => rfl
  | cons c changes ih => rw [List.foldl_cons, ih, Change.get?_apply, List.foldl_cons]

theorem image_eq_error {m : Map} {key : Formula} {e : SyntaxError} :
    m.image key = .error e ↔ m.get? key = none ∧ e = .noImage key m.formula := by
  rw [image]
  cases m.get? key <;> simp [eq_comm]

theorem image_eq_ok {m : Map} {key image : Formula} :
    m.image key = .ok image ↔ m.get? key = some image := by
  rw [Map.image]
  cases m.get? key <;> simp

/-- A map is a store of a finite partial function.  Let `m` arise from a list of pairs by any
changes.  Then the position of a key in the domain leads to the image in the codomain that the
replayed function has there; the map contains a key exactly when there is an image; and asking for
the image is refused exactly when there is none, and otherwise gives it.  Two maps, of whatever
history, are equivalent exactly when they look every formula up alike. -/
theorem changes_replay {pairs : List (Formula × Formula)} {start : Map}
    (hstart : ofPairs pairs = .ok start) (changes : List Change) :
    let m := changes.foldl Change.apply start
    m.get? = changes.foldl Change.replay (Lookup.ofPairs pairs) ∧
    Lookup.ofParts m.domain m.codomain = m.get? ∧
    (∀ key, m.containsKey key = true ↔ (m.get? key).isSome) ∧
    (∀ key e, m.image key = .error e ↔
      m.get? key = none ∧ e = .noImage key m.formula ∧ e.code = "SYN-008") ∧
    (∀ key image, m.image key = .ok image ↔ m.get? key = some image) ∧
    ∀ m₁ m₂ : Map, m₁.equivalent m₂ = true ↔ ∀ key, m₁.get? key = m₂.get? key := by
  intro m
  refine ⟨?_, Lookup.ofParts_map m, fun key => ?_, fun key e => ?_, fun key image => image_eq_ok,
    fun m₁ m₂ => equivalent_iff⟩
  · rw [get?_changes, get?_ofPairs hstart]
  · rw [containsKey, decide_eq_true_eq, get?_isSome]
  · rw [image_eq_error]
    constructor
    · rintro ⟨hnone, rfl⟩
      exact ⟨hnone, rfl, rfl⟩
    · rintro ⟨hnone, he, -⟩
      exact ⟨hnone, he⟩

open Propositional in
/-- A key is overridden, another one is removed, and the keys are cut down to three, one of which
has no image. -/
theorem changes_replay_overridden :
    ∃ start, ofPairs [(p, q), (q, r), (implies p q, p)] = .ok start ∧
      let changes : List Change :=
        [.withPair p (implies p q), .without q, .withPair q s, .restrict [q, x, p]]
      let m := changes.foldl Change.apply start
      m.get? = changes.foldl Change.replay
        (Lookup.ofPairs [(p, q), (q, r), (implies p q, p)]) ∧
      m.pairs = [(p, implies p q), (q, s)] ∧
      ∃ e, m.image x = .error e ∧ e.code = "SYN-008" := by
  have hstart : ofPairs [(p, q), (q, r), (implies p q, p)] =
      .ok (.ofDistinct [(p, q), (q, r), (implies p q, p)] (by decide)) := ofPairs_eq_ok.mpr rfl
  obtain ⟨hget, -, -, himage, -⟩ := changes_replay hstart
    [.withPair p (implies p q), .without q, .withPair q s, .restrict [q, x, p]]
  exact ⟨_, hstart, hget, by decide, _, (himage x _).mpr ⟨by decide, rfl, rfl⟩, rfl⟩

/-! ## Inverses -/

/-- Two keys have the same image exactly when an image repeats. -/
theorem nodup_images_iff {m : Map} :
    m.images.Nodup ↔
      ∀ key key' image, m.get? key = some image → m.get? key' = some image → key = key' := by
  simp only [get?_eq_some, ← map_snd_pairs]
  constructor
  · intro h key key' image hkey hkey'
    have heq : (key, image) = (key', image) := List.inj_on_of_nodup_map h hkey hkey' rfl
    exact (Prod.mk.inj heq).1
  · intro h
    have hpairs : m.pairs.Nodup := m.nodup.of_map
    refine (List.nodup_map_iff_inj_on hpairs).mpr fun p hp p' hp' himage => ?_
    have hkey : p.1 = p'.1 := h p.1 p'.1 p.2 hp (himage ▸ hp')
    exact Prod.ext hkey himage

theorem images_of_swap {m n : Map} (h : n.pairs = m.pairs.map Prod.swap) : m.images = n.keys := by
  rw [← map_fst_pairs, h, List.map_map, ← map_snd_pairs]
  rfl

/-- The inverse has the swapped pairs. -/
theorem inverse_eq_ok {m n : Map} : m.inverse = .ok n ↔ n.pairs = m.pairs.map Prod.swap := by
  have hswap (e : Enumeration) (h : e.elements = m.images) :
      e.elements.zip m.keys = m.pairs.map Prod.swap := by
    rw [h, pairs, List.zip_swap]
  have hrefused {e : SyntaxError} (h : Enumeration.ofList m.images = .error e) :
      n.pairs ≠ m.pairs.map Prod.swap := by
    intro hn
    have hok : Enumeration.ofList m.images = .ok n.domain :=
      Enumeration.ofList_eq_ok.mpr (images_of_swap hn).symm
    simp [hok] at h
  unfold inverse
  split
  next e h =>
    rw [Except.ok.injEq, Map.ext_iff, ← hswap e (Enumeration.ofList_eq_ok.mp h), eq_comm]
    rfl
  next h => simpa using hrefused h
  next h => simpa using hrefused h

theorem exists_inverse_iff {m : Map} : (∃ n, m.inverse = .ok n) ↔ m.images.Nodup := by
  constructor
  · rintro ⟨n, hn⟩
    exact images_of_swap (inverse_eq_ok.mp hn) ▸ n.domain.nodup
  · intro h
    have hswap : ((m.pairs.map Prod.swap).map Prod.fst).Nodup := by
      rw [← map_snd_pairs] at h
      rwa [List.map_map]
    exact ⟨ofDistinct (m.pairs.map Prod.swap) hswap, inverse_eq_ok.mpr (pairs_ofDistinct ..)⟩

/-- Inverting is refused with the repeat that enumerating the images is refused with. -/
theorem inverse_eq_error_iff {m : Map} {e : SyntaxError} :
    m.inverse = .error e ↔
      ∃ r, firstRepeat? [] m.images = some r ∧ e = .notInvertible m.formula r.element := by
  unfold inverse
  split
  next domain h =>
    have hnodup : m.images.Nodup := Enumeration.ofList_eq_ok.mp h ▸ domain.nodup
    have hnone : firstRepeat? [] m.images = none :=
      firstRepeat?_eq_none_iff.mpr ⟨hnodup, by simp⟩
    simp [hnone]
  next h =>
    obtain ⟨r, hr, he⟩ := Enumeration.ofList_eq_error.mp h
    obtain ⟨rfl, -, -⟩ := SyntaxError.duplicate.inj he
    simp [hr, eq_comm]
  next hother h =>
    obtain ⟨r, -, he⟩ := Enumeration.ofList_eq_error.mp h
    exact absurd he (hother r.element r.first r.second)

/-- Inverting is refused with the first image that repeats an earlier one. -/
theorem inverse_eq_error {m : Map} {e : SyntaxError} :
    m.inverse = .error e ↔
      ∃ front image back, m.images = front ++ image :: back ∧ front.Nodup ∧ image ∈ front ∧
        e = .notInvertible m.formula image := by
  rw [inverse_eq_error_iff]
  constructor
  · rintro ⟨r, hr, rfl⟩
    obtain ⟨front, back, himages, hnodup, hfirst, -⟩ :=
      (firstRepeat?_eq_some_iff List.nodup_nil).mp hr
    exact ⟨front, r.element, back, himages, hnodup, List.mem_of_getElem? hfirst, rfl⟩
  · rintro ⟨front, image, back, himages, hnodup, hmem, rfl⟩
    obtain ⟨i, hi⟩ := List.getElem?_of_mem hmem
    exact ⟨⟨image, i, front.length⟩, (firstRepeat?_eq_some_iff List.nodup_nil).mpr
      ⟨front, back, himages, hnodup, hi, rfl⟩, rfl⟩

/-- Inverting a map succeeds exactly when no two keys have the same image, and otherwise it is
refused with the first image in the order of the keys that repeats an earlier one.  The inverse
finds a key for an image exactly when the map finds the image for the key, and the inverse of the
inverse is the map itself with its order. -/
theorem inverse_swaps (m : Map) :
    ((∃ n, m.inverse = .ok n) ↔
      ∀ key key' image, m.get? key = some image → m.get? key' = some image → key = key') ∧
    (∀ e, m.inverse = .error e ↔
      ∃ front image back, m.images = front ++ image :: back ∧ front.Nodup ∧ image ∈ front ∧
        e = .notInvertible m.formula image ∧ e.code = "SYN-009") ∧
    ∀ n, m.inverse = .ok n →
      (∀ key image, n.get? image = some key ↔ m.get? key = some image) ∧ n.inverse = .ok m := by
  refine ⟨exists_inverse_iff.trans nodup_images_iff, fun e => ?_, fun n hn => ?_⟩
  · rw [inverse_eq_error]
    constructor
    · rintro ⟨front, image, back, himages, hnodup, hmem, rfl⟩
      exact ⟨front, image, back, himages, hnodup, hmem, rfl, rfl⟩
    · rintro ⟨front, image, back, himages, hnodup, hmem, he, -⟩
      exact ⟨front, image, back, himages, hnodup, hmem, he⟩
  · have hpairs : n.pairs = m.pairs.map Prod.swap := inverse_eq_ok.mp hn
    refine ⟨fun key image => ?_, inverse_eq_ok.mpr ?_⟩
    · rw [get?_eq_some, get?_eq_some, hpairs]
      simp
    · rw [hpairs, List.map_map, Prod.swap_swap_eq, List.map_id]

open Propositional in
/-- The images are keys too: three atoms are sent around in a circle. -/
theorem inverse_swaps_circle :
    let m : Map := .ofDistinct [(p, q), (q, r), (r, p)] (by decide)
    ∃ n, m.inverse = .ok n ∧ n.get? q = some p ∧ n.inverse = .ok m := by
  intro m
  obtain ⟨hexists, -, hinverse⟩ := inverse_swaps m
  obtain ⟨n, hn⟩ := hexists.mpr (nodup_images_iff.mp (by decide))
  obtain ⟨hget, hback⟩ := hinverse n hn
  exact ⟨n, hn, (hget p q).mpr (by decide), hback⟩

end Map

end Deduction
