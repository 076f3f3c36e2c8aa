import Mathlib.Data.List.Induction
import Mathlib.Data.List.Nodup
import Mathlib.Order.Bounds.Defs
import Deduction.Collection.Map
import Deduction.Error

/-!
# Laws of appending and of looking up

Derivations are cited by their positions, and what stands in a front part of a list has a position
there.  A position repeats an element if the element stands in the part before it (`RepeatsAt`).

Apart from that, two operations carry the proofs about collections.  `appendNew` appends to
a list what it does not have; it can be done in portions, and a part of the list that is known
beforehand only filters what comes in.  Started from nothing it keeps the first occurrences, which
can be told by looking back in the given list instead of in the list of what was kept
(`appendNew_nil_eq_selected`).  `Map.get?` looks a key up; since no key of a map repeats, a
lookup says exactly which pairs the map has, and a map with more pairs finds what a map with fewer
finds.
-/

namespace Deduction

/-! ## Positions -/

theorem exists_lt_of_mem_take {α : Type} {xs : List α} {n : Nat} {x : α} (h : x ∈ xs.take n) :
    ∃ i < n, xs[i]? = some x := by
  obtain ⟨i, hi, hget⟩ := List.mem_take_iff_getElem.mp h
  have hlt : i < n ∧ i < xs.length := Nat.lt_min.mp hi
  exact ⟨i, hlt.1, by rw [List.getElem?_eq_getElem hlt.2, hget]⟩

/-- The element at the index occurs before it. -/
def RepeatsAt {α : Type} (xs : List α) (i : Nat) : Prop := ∃ x, xs[i]? = some x ∧ x ∈ xs.take i

/-- A list has no duplicates exactly when no index repeats an element. -/
theorem nodup_iff_not_repeatsAt {α : Type} {xs : List α} :
    xs.Nodup ↔ ∀ i, ¬ RepeatsAt xs i := by
  constructor
  · rintro hnodup i ⟨x, hi, hmem⟩
    obtain ⟨j, hji, hj⟩ := exists_lt_of_mem_take hmem
    have hlt : j < xs.length := (List.getElem?_eq_some_iff.mp hj).1
    have heq : j = i := (List.getElem?_inj hlt hnodup).mp (hj.trans hi.symm)
    omega
  · intro h
    rw [List.nodup_iff_getElem?_ne_getElem?]
    intro i j hij hj heq
    have hget : xs[j]? = some xs[j] := List.getElem?_eq_getElem hj
    refine h j ⟨xs[j], hget, ?_⟩
    have hfront : (xs.take j)[i]? = some xs[j] := by
      rw [List.getElem?_take_of_lt hij, heq, hget]
    exact List.mem_of_getElem? hfront

theorem repeatsAt_take {α : Type} {xs : List α} {n i : Nat} (h : i < n) :
    RepeatsAt (xs.take n) i ↔ RepeatsAt xs i := by
  rw [RepeatsAt, RepeatsAt, List.getElem?_take_of_lt h, List.take_take,
    Nat.min_eq_left (Nat.le_of_lt h)]

/-- The elements that are selected by what stands before them, each with its index. -/
def selected {α : Type} (select : List α → α → Bool) (xs : List α) : List (α × Nat) :=
  xs.zipIdx.filter fun p => select (xs.take p.2) p.1

theorem selected_append_singleton {α : Type} (select : List α → α → Bool) (xs : List α)
    (x : α) :
    selected select (xs ++ [x]) =
      selected select xs ++ if select xs x then [(x, xs.length)] else [] := by
  have hfront : ∀ p ∈ xs.zipIdx,
      select ((xs ++ [x]).take p.2) p.1 = select (xs.take p.2) p.1 := by
    rintro ⟨y, i⟩ hp
    have hi : i < xs.length := by simpa using List.snd_lt_of_mem_zipIdx hp
    rw [List.take_append_of_le_length (Nat.le_of_lt hi)]
  rw [selected, selected, List.zipIdx_append, List.filter_append, List.filter_congr hfront]
  simp [List.filter_cons]

/-! ## The first repeat -/

section FirstRepeat

variable {α : Type} [DecidableEq α]

/-- The repeat that is found stands after a front part without duplicates, in which its element
occurs at the index that is given. -/
theorem firstRepeat?_eq_some_iff {seen xs : List α} (hseen : seen.Nodup) {r : Repeat α} :
    firstRepeat? seen xs = some r ↔
      ∃ front back, xs = front ++ r.element :: back ∧ (seen ++ front).Nodup ∧
        (seen ++ front)[r.first]? = some r.element ∧ r.second = (seen ++ front).length := by
  induction xs generalizing seen with
  | nil => simp [firstRepeat?]
  | cons x xs ih =>
    rw [firstRepeat?]
    split
    next i hi =>
      obtain ⟨hlt, hget, -⟩ := List.findIdx?_eq_some_iff_getElem.mp hi
      have hx : seen[i]? = some x := by
        rw [List.getElem?_eq_getElem hlt, of_decide_eq_true hget]
      constructor
      · rintro ⟨⟩
        exact ⟨[], xs, rfl, by simpa using hseen, by simpa using hx, by simp⟩
      · rintro ⟨_ | ⟨y, front⟩, back, hsplit, hnodup, hfirst, hsecond⟩
        · obtain ⟨element, first, second⟩ := r
          obtain ⟨rfl, rfl⟩ := List.cons.inj hsplit
          have hfirst : seen[first]? = some x := by simpa using hfirst
          have heq : i = first :=
            (List.getElem?_inj hlt hseen).mp (hx.trans hfirst.symm)
          simp_all
        · obtain ⟨rfl, -⟩ := List.cons.inj hsplit
          have hmem : x ∈ seen := List.mem_of_getElem? hx
          grind
    next hi =>
      have hx : x ∉ seen := by
        intro h
        simpa using List.findIdx?_eq_none_iff.mp hi x h
      have hseen' : (seen ++ [x]).Nodup := by
        simpa [List.nodup_append] using ⟨hseen, fun a ha hax => hx (hax ▸ ha)⟩
      rw [ih hseen']
      constructor
      · rintro ⟨front, back, rfl, hfacts⟩
        exact ⟨x :: front, back, rfl, by simpa using hfacts⟩
      · rintro ⟨_ | ⟨y, front⟩, back, hsplit, hnodup, hfirst, hsecond⟩
        · obtain ⟨rfl, -⟩ := List.cons.inj hsplit
          exact absurd (List.mem_of_getElem? (by simpa using hfirst)) hx
        · obtain ⟨rfl, rfl⟩ := List.cons.inj hsplit
          exact ⟨front, back, rfl, by simpa using hnodup, by simpa using hfirst,
            by simpa using hsecond⟩

/-- Under an injective map the same positions repeat. -/
theorem firstRepeat?_map {β : Type} [DecidableEq β] {f : α → β} (hf : Function.Injective f)
    (seen xs : List α) :
    firstRepeat? (seen.map f) (xs.map f) =
      (firstRepeat? seen xs).map fun r => ⟨f r.element, r.first, r.second⟩ := by
  induction xs generalizing seen with
  | nil => rfl
  | cons x xs ih =>
    have hfind : (seen.map f).findIdx? (· = f x) = seen.findIdx? (· = x) := by
      simp [List.findIdx?_map, Function.comp_def, hf.eq_iff]
    have hrest := ih (seen ++ [x])
    rw [List.map_append, List.map_singleton] at hrest
    rw [List.map_cons, firstRepeat?, firstRepeat?, hfind, hrest]
    cases seen.findIdx? (· = x) <;> simp

/-- The repeat that is found ends at the least index that repeats an element, and starts at the
least index of that element. -/
theorem firstRepeat?_eq_some_iff_isLeast {xs : List α} {r : Repeat α} :
    firstRepeat? [] xs = some r ↔
      xs[r.second]? = some r.element ∧ IsLeast {i | RepeatsAt xs i} r.second ∧
        IsLeast {i | xs[i]? = some r.element} r.first := by
  obtain ⟨element, first, second⟩ := r
  rw [firstRepeat?_eq_some_iff List.nodup_nil]
  simp only [List.nil_append]
  constructor
  · rintro ⟨front, back, rfl, hnodup, hfirst, rfl⟩
    have hlt : first < front.length := (List.getElem?_eq_some_iff.mp hfirst).1
    have htake : (front ++ element :: back).take front.length = front := List.take_left
    have hsecond : (front ++ element :: back)[front.length]? = some element := by simp
    refine ⟨hsecond, ⟨⟨element, hsecond, ?_⟩, fun i hi => ?_⟩, ?_, fun i hi => ?_⟩
    · rw [htake]
      exact List.mem_of_getElem? hfirst
    · by_contra hlt
      have hfront : RepeatsAt front i := by
        rw [← htake, repeatsAt_take (by omega)]
        exact hi
      exact nodup_iff_not_repeatsAt.mp hnodup i hfront
    · exact (List.getElem?_append_left hlt).trans hfirst
    · by_contra hlt'
      have hi : front[i]? = some element := by
        rw [← List.getElem?_append_left (by omega)]
        exact hi
      have heq : first = i := (List.getElem?_inj hlt hnodup).mp (hfirst.trans hi.symm)
      omega
  · rintro ⟨hget, ⟨⟨x, hx, hmem⟩, hleast⟩, hfirst, hfirstLeast⟩
    obtain rfl : element = x := Option.some.inj (hget.symm.trans hx)
    obtain ⟨j, hj, hjx⟩ := exists_lt_of_mem_take hmem
    have hlt : first < second := Nat.lt_of_le_of_lt (hfirstLeast hjx) hj
    have hsplit : second < xs.length := (List.getElem?_eq_some_iff.mp hget).1
    refine ⟨xs.take second, xs.drop (second + 1), ?_, ?_, ?_, ?_⟩
    · have helement : xs[second] = element := (List.getElem?_eq_some_iff.mp hget).2
      rw [← helement, ← List.drop_eq_getElem_cons hsplit, List.take_append_drop]
    · rw [nodup_iff_not_repeatsAt]
      intro i hi
      have hi' : i < second := by
        obtain ⟨y, hy, -⟩ := hi
        have hlength := (List.getElem?_eq_some_iff.mp hy).1
        rw [List.length_take] at hlength
        omega
      have hge : second ≤ i := hleast ((repeatsAt_take hi').mp hi)
      omega
    · rw [List.getElem?_take_of_lt hlt]
      exact hfirst
    · rw [List.length_take, Nat.min_eq_left (Nat.le_of_lt hsplit)]

end FirstRepeat

/-! ## Appending what is new -/

section AppendNew

variable {α : Type} [DecidableEq α]

/-- Two lists can be appended one after the other. -/
theorem appendNew_append (seen xs ys : List α) :
    appendNew seen (xs ++ ys) = appendNew (appendNew seen xs) ys := by
  induction xs generalizing seen with
  | nil => rfl
  | cons x xs ih =>
    by_cases hx : x ∈ seen
    · simp only [List.cons_append, appendNew, hx, if_true, ih]
    · simp only [List.cons_append, appendNew, hx, if_false, ih]

/-- A known front part stays where it is and keeps out what it has. -/
theorem appendNew_append_left (front seen xs : List α) :
    appendNew (front ++ seen) xs = front ++ appendNew seen (xs.filter (· ∉ front)) := by
  induction xs generalizing seen with
  | nil => rfl
  | cons x xs ih =>
    by_cases hfront : x ∈ front
    · simp [appendNew, hfront, ih]
    · by_cases hseen : x ∈ seen
      · simp [appendNew, hfront, hseen, ih]
      · have hnew : x ∉ front ++ seen := by simp [hfront, hseen]
        rw [appendNew, if_neg hnew, List.append_assoc, ih]
        simp [appendNew, hfront, hseen]

/-- What is appended are the first occurrences of the elements that are not there. -/
theorem appendNew_eq_append_strip (seen xs : List α) :
    appendNew seen xs = seen ++ appendNew [] (xs.filter (· ∉ seen)) := by
  simpa using appendNew_append_left seen [] xs

/-- What is there already is not appended. -/
theorem appendNew_of_subset {seen xs : List α} (h : xs ⊆ seen) : appendNew seen xs = seen := by
  have hnone : xs.filter (· ∉ seen) = [] := by
    rw [List.filter_eq_nil_iff]
    intro x hx
    simpa using h hx
  rw [appendNew_eq_append_strip, hnone]
  simp [appendNew]

/-- Of a list without duplicates, what is appended is what is not there. -/
theorem appendNew_of_nodup {xs : List α} (seen : List α) (h : xs.Nodup) :
    appendNew seen xs = seen ++ xs.filter (· ∉ seen) := by
  have hnew : appendNew [] (xs.filter (· ∉ seen)) = xs.filter (· ∉ seen) :=
    appendNew_eq_append (h.filter _) (by simp)
  rw [appendNew_eq_append_strip, hnew]

/-- It makes no difference which of three lists are put together first. -/
theorem appendNew_assoc (xs ys zs : List α) :
    appendNew (appendNew xs ys) zs = appendNew xs (appendNew ys zs) := by
  induction zs generalizing ys with
  | nil => rfl
  | cons z zs ih =>
    by_cases hz : z ∈ ys
    · have hz' : z ∈ appendNew xs ys := mem_appendNew.mpr (.inr hz)
      simp only [appendNew, hz, hz', if_true, ih]
    · calc
        appendNew (appendNew xs ys) (z :: zs) = appendNew (appendNew xs (ys ++ [z])) zs := by
          rw [appendNew_append, ← appendNew_append (appendNew xs ys) [z] zs, List.singleton_append]
        _ = appendNew xs (appendNew (ys ++ [z]) zs) := ih (ys ++ [z])
        _ = appendNew xs (appendNew ys (z :: zs)) := by simp only [appendNew, hz, if_false]

/-- An injective map can be applied before or after. -/
theorem appendNew_map {β : Type} [DecidableEq β] {f : α → β} (hf : Function.Injective f)
    (seen xs : List α) :
    appendNew (seen.map f) (xs.map f) = (appendNew seen xs).map f := by
  induction xs generalizing seen with
  | nil => rfl
  | cons x xs ih =>
    have hrest := ih (seen ++ [x])
    rw [List.map_append, List.map_singleton] at hrest
    by_cases hx : x ∈ seen
    · simp only [List.map_cons, appendNew, List.mem_map_of_injective hf, hx, if_true, ih]
    · simp only [List.map_cons, appendNew, List.mem_map_of_injective hf, hx, if_false, hrest]

/-- The kept elements are those that do not occur before. -/
theorem appendNew_nil_eq_selected (xs : List α) :
    appendNew [] xs = (selected (fun before x => decide (x ∉ before)) xs).map Prod.fst := by
  -- From the end: the last element is compared with what was kept of the elements before it.
  induction xs using List.reverseRecOn with
  | nil => rfl
  | append_singleton xs x ih =>
    rw [appendNew_append, selected_append_singleton, List.map_append, ← ih]
    by_cases hx : x ∈ xs
    · simp [appendNew, hx]
    · simp [appendNew, hx]

theorem repeats_append (seen : List α) (index : Nat) (xs ys : List α) :
    repeats seen index (xs ++ ys) =
      repeats seen index xs ++ repeats (appendNew seen xs) (index + xs.length) ys := by
  induction xs generalizing seen index with
  | nil => simp [repeats, appendNew]
  | cons x xs ih =>
    by_cases hx : x ∈ seen
    · simp [repeats, appendNew, hx, ih, Nat.add_assoc, Nat.add_comm 1]
    · simp [repeats, appendNew, hx, ih, Nat.add_assoc, Nat.add_comm 1]

theorem repeats_nil_eq_selected (xs : List α) :
    repeats [] 0 xs = selected (fun before x => decide (x ∈ before)) xs := by
  induction xs using List.reverseRecOn with
  | nil => rfl
  | append_singleton xs x ih =>
    rw [repeats_append, selected_append_singleton, ih]
    by_cases hx : x ∈ xs
    · simp [repeats, hx]
    · simp [repeats, hx]

end AppendNew

/-- A list is refused for the repeat that is found in it. -/
theorem Enumeration.ofList_eq_error {xs : List Formula} {e : SyntaxError} :
    ofList xs = .error e ↔
      ∃ r, firstRepeat? [] xs = some r ∧ e = .duplicate r.element r.first r.second := by
  rw [ofList]
  split
  next r h => simp [h, eq_comm]
  next h => simp [h]

/-- Enumerations are equivalent exactly when they have the same elements. -/
theorem Enumeration.equivalent_iff {a b : Enumeration} :
    a.equivalent b = true ↔ ∀ φ, φ ∈ a.elements ↔ φ ∈ b.elements := by
  simp [equivalent, iff_def, forall_and]

/-! ## Maps as lists of pairs -/

namespace Map

theorem mem_keys_of_mem {m : Map} {p : Formula × Formula} (h : p ∈ m.pairs) : p.1 ∈ m.keys :=
  m.map_fst_pairs ▸ List.mem_map_of_mem h

theorem keys_subset {m n : Map} (h : m.pairs ⊆ n.pairs) : m.keys ⊆ n.keys := by
  rw [← map_fst_pairs, ← map_fst_pairs]
  exact List.map_subset _ h

@[simp] theorem pairs_filter (m : Map) (keep : Formula → Bool) :
    (m.filter keep).pairs = m.pairs.filter (keep ·.1) :=
  pairs_ofDistinct ..

theorem pairs_withPair (m : Map) (key image : Formula) :
    (m.withPair key image).pairs = m.pairs.filter (·.1 ≠ key) ++ [(key, image)] := by
  rw [← pairs_filter m (· ≠ key)]
  exact List.zip_append (m.without key).aligned

/-- Parts make a map exactly when there is one with this domain and this codomain. -/
theorem ofParts_eq_ok {domain : Enumeration} {codomain : Sequence} {m : Map} :
    ofParts domain codomain = .ok m ↔ m.domain = domain ∧ m.codomain = codomain := by
  rw [ofParts]
  split
  next h =>
    rw [Except.ok.injEq]
    constructor
    · rintro rfl
      exact ⟨rfl, rfl⟩
    · rintro ⟨rfl, rfl⟩
      exact Map.ext rfl
  next h =>
    simp only [reduceCtorEq, false_iff]
    rintro ⟨rfl, rfl⟩
    exact h m.aligned

/-- A pair list is refused exactly when a key repeats. -/
theorem ofPairs_eq_ok {pairs : List (Formula × Formula)} {m : Map} :
    ofPairs pairs = .ok m ↔ m.pairs = pairs := by
  constructor
  · intro h
    obtain ⟨e, he, h⟩ := except_bind_eq_ok.mp h
    obtain ⟨rfl, hcodomain⟩ := ofParts_eq_ok.mp h
    have hkeys : m.keys = pairs.map Prod.fst := Enumeration.ofList_eq_ok.mp he
    have himages : m.images = pairs.map Prod.snd := congrArg Sequence.elements hcodomain
    rw [Map.pairs, hkeys, himages, ← List.zip_of_prod rfl rfl]
  · rintro rfl
    refine except_bind_eq_ok.mpr ⟨m.domain, Enumeration.ofList_eq_ok.mpr ?_, ofParts_eq_ok.mpr ?_⟩
    · exact m.map_fst_pairs.symm
    · exact ⟨rfl, Sequence.ext m.map_snd_pairs.symm⟩

/-! ## Looking up -/

/-- A lookup finds an image exactly when the map has the pair. -/
theorem get?_eq_some {m : Map} {key image : Formula} :
    m.get? key = some image ↔ (key, image) ∈ m.pairs := by
  rw [get?_eq_find?]
  constructor
  · intro h
    obtain ⟨⟨k, v⟩, hfind, rfl⟩ := Option.map_eq_some_iff.mp h
    have hk : k = key := by simpa using List.find?_some hfind
    exact hk ▸ List.mem_of_find?_eq_some hfind
  · intro h
    have hfound : (m.pairs.find? (·.1 = key)).isSome := by
      rw [List.find?_isSome]
      exact ⟨_, h, by simp⟩
    obtain ⟨⟨k, v⟩, hfind⟩ := Option.isSome_iff_exists.mp hfound
    have hk : k = key := by simpa using List.find?_some hfind
    -- Both pairs have the same key, and no key of the map repeats.
    have heq : (k, v) = (key, image) :=
      List.inj_on_of_nodup_map m.nodup (List.mem_of_find?_eq_some hfind) h hk
    rw [hfind, heq]
    rfl

theorem mem_keys_of_get? {m : Map} {key image : Formula} (h : m.get? key = some image) :
    key ∈ m.keys :=
  get?_isSome.mp (by simp [h])

theorem get?_mono {m n : Map} (h : m.pairs ⊆ n.pairs) {key image : Formula}
    (hm : m.get? key = some image) : n.get? key = some image :=
  get?_eq_some.mpr (h (get?_eq_some.mp hm))

/-- Maps with the same pairs look everything up alike. -/
theorem get?_congr {m n : Map} (h : ∀ p, p ∈ m.pairs ↔ p ∈ n.pairs) : m.get? = n.get? := by
  funext key
  apply Option.ext
  intro image
  rw [get?_eq_some, get?_eq_some, h]

theorem get?_filter (m : Map) (keep : Formula → Bool) (key : Formula) :
    (m.filter keep).get? key = if keep key then m.get? key else none := by
  apply Option.ext
  intro image
  rw [get?_eq_some, pairs_filter, List.mem_filter]
  cases keep key <;> simp [get?_eq_some]

theorem mem_keys_filter {m : Map} {keep : Formula → Bool} {key : Formula} :
    key ∈ (m.filter keep).keys ↔ key ∈ m.keys ∧ keep key = true := by
  rw [← get?_isSome, ← get?_isSome, get?_filter]
  cases keep key <;> simp

theorem get?_restrict (m : Map) (keys : List Formula) (key : Formula) :
    (m.restrict keys).get? key = if key ∈ keys then m.get? key else none := by
  rw [restrict, get?_filter]
  simp

/-- Maps are equivalent exactly when they look everything up alike. -/
theorem equivalent_iff {m n : Map} : m.equivalent n = true ↔ ∀ key, m.get? key = n.get? key := by
  have hparts : m.equivalent n = true ↔
      (∀ key, key ∈ m.keys ↔ key ∈ n.keys) ∧ ∀ p ∈ m.pairs, n.get? p.1 = some p.2 := by
    rw [equivalent, Bool.and_eq_true, Enumeration.equivalent_iff]
    simp [keys]
  rw [hparts]
  constructor
  · rintro ⟨hkeys, himages⟩ key
    cases hm : m.get? key with
    | some image => exact (himages _ (get?_eq_some.mp hm)).symm
    | none =>
      symm
      rw [get?_eq_none] at hm ⊢
      exact fun hkey => hm ((hkeys key).mpr hkey)
  · intro h
    refine ⟨fun key => ?_, fun p hp => ?_⟩
    · rw [← get?_isSome, ← get?_isSome, h]
    · rw [← h, get?_eq_some]
      exact hp

/-- The pair of a new key is appended. -/
theorem withPair_pairs {m : Map} {key : Formula} (h : key ∉ m.keys) (image : Formula) :
    (m.withPair key image).pairs = m.pairs ++ [(key, image)] := by
  have hkeep : m.pairs.filter (fun p => decide (p.1 ≠ key)) = m.pairs := by
    rw [List.filter_eq_self]
    intro p hp
    have hne : p.1 ≠ key := fun heq => h (heq ▸ mem_keys_of_mem hp)
    simpa using hne
  rw [pairs_withPair, hkeep]

theorem withPair_keys {m : Map} {key : Formula} (h : key ∉ m.keys) (image : Formula) :
    (m.withPair key image).keys = m.keys ++ [key] := by
  simp [← map_fst_pairs, withPair_pairs h]

theorem mem_withPair {m : Map} {key image : Formula} {p : Formula × Formula} :
    p ∈ (m.withPair key image).pairs ↔ (p ∈ m.pairs ∧ p.1 ≠ key) ∨ p = (key, image) := by
  simp [pairs_withPair]

theorem mem_keys_withPair {m : Map} {key image k : Formula} :
    k ∈ (m.withPair key image).keys ↔ k ∈ m.keys ∨ k = key := by
  simp only [← map_fst_pairs, List.mem_map, mem_withPair]
  constructor
  · rintro ⟨p, ⟨hp, -⟩ | rfl, rfl⟩
    · exact .inl ⟨p, hp, rfl⟩
    · exact .inr rfl
  · rintro (⟨p, hp, rfl⟩ | rfl)
    · by_cases hkey : p.1 = key
      · exact ⟨_, .inr rfl, hkey.symm⟩
      · exact ⟨p, .inl ⟨hp, hkey⟩, rfl⟩
    · exact ⟨_, .inr rfl, rfl⟩

end Map

end Deduction
