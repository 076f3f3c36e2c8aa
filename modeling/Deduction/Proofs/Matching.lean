import Deduction.Matching
import Deduction.Proofs.Propositional
import Deduction.Proofs.Substitution

/-!
# Matching finds the least solution

A solution of a match binds variables only, agrees with the bindings that the match starts from,
and turns the pattern into the target.  Matching goes through the pattern once and never takes a
binding back.  This file shows that nothing is lost that way: the match succeeds exactly when there
is a solution, what it returns is one, and every other solution has all of its bindings.

The pass collects a list of pairs.  A variable is assigned only if it has no assignment yet, so the
keys never repeat and there is a map of the list at every point (`exists_map_of_unify`).  That is
why the map that a match ends with is never refused, and why the rest of the argument can speak of
maps.

Two invariants carry it.  `Binds` says what a successful pass has done: it has kept the
bindings, appended the pattern's variables in the order of their first occurrence, and made the
patterns equal to the targets.  The other one looks at an arbitrary solution: as long as the
bindings so far are among its pairs, the next step succeeds and leaves them there
(`unify_of_solution`).

Variables are atomic throughout.  That they do not occur in the target matters to the second
invariant only: an unbound variable would stay in what the substitution makes of the pattern.
-/

namespace Deduction

/-- The map `s` sends the keys of `m` where `m` sends them. -/
def Map.AgreesWith (m s : Map) : Prop := ∀ key ∈ m.keys, s.get? key = m.get? key

theorem Map.agreesWith_iff {m s : Map} : m.AgreesWith s ↔ m.pairs ⊆ s.pairs := by
  constructor
  · rintro h ⟨key, image⟩ hp
    have hm : m.get? key = some image := Map.get?_eq_some.mpr hp
    exact Map.get?_eq_some.mp ((h key (Map.mem_keys_of_get? hm)).trans hm)
  · intro h key hkey
    obtain ⟨image, hm⟩ := Option.isSome_iff_exists.mp (Map.get?_isSome.mpr hkey)
    rw [hm, Map.get?_mono h hm]

namespace Formula

/-- The map `s` binds variables only, agrees with the bindings, and turns the pattern into the
target. -/
structure Solves (vars : List Formula) (bindings : Map) (pattern target : Formula) (s : Map) :
    Prop where
  keys : ∀ key ∈ s.keys, key ∈ vars
  agrees : bindings.AgreesWith s
  solves : pattern.substitute s = target

/-! ## The preconditions -/

theorem variableError?_eq_none {vars : List Formula} {target : Formula} :
    variableError? vars target = none ↔ ∀ v ∈ vars, v.IsAtomic ∧ target.contains v = false := by
  simp only [variableError?, List.findSome?_eq_none_iff]
  constructor
  · intro h v hv
    have hv := h v hv
    by_cases hatomic : v.IsAtomic
    · by_cases hoccurs : target.contains v = true
      · simp [hatomic, hoccurs] at hv
      · exact ⟨hatomic, by simpa using hoccurs⟩
    · simp [hatomic] at hv
  · intro h v hv
    simp [h v hv]

/-! ## The assignments are a map -/

theorem exists_map_of_unifyList {vars ps : List Formula}
    (ih : ∀ p ∈ ps, ∀ (t : Formula) (b : Map) (assigned : List (Formula × Formula)),
      unify vars p t b.pairs = some assigned → ∃ m : Map, m.pairs = assigned)
    {ts : List Formula} {b : Map} {assigned : List (Formula × Formula)}
    (h : unifyList vars ps ts b.pairs = some assigned) : ∃ m : Map, m.pairs = assigned := by
  induction ps generalizing ts b with
  | nil =>
    cases ts with
    | nil => exact ⟨b, by simpa [unifyList] using h⟩
    | cons t ts => simp [unifyList] at h
  | cons p ps ihps =>
    cases ts with
    | nil => simp [unifyList] at h
    | cons t ts =>
      rw [unifyList] at h
      cases hp : unify vars p t b.pairs with
      | none => simp [hp] at h
      | some front =>
        obtain ⟨b', rfl⟩ := ih p (by simp) t b front hp
        rw [hp] at h
        exact ihps (fun q hq => ih q (by simp [hq])) h

/-- The assignments that a pass makes are the pairs of a map, if it starts from the pairs of one: no
variable is assigned twice. -/
theorem exists_map_of_unify {vars : List Formula} {pattern target : Formula} {b : Map}
    {assigned : List (Formula × Formula)} (h : unify vars pattern target b.pairs = some assigned) :
    ∃ m : Map, m.pairs = assigned := by
  induction pattern generalizing target b assigned with
  | node c ps ih =>
    rw [unify, Lookup.firstOf_map] at h
    by_cases hvar : node c ps ∈ vars
    · rw [if_pos hvar] at h
      cases hget : b.get? (node c ps) with
      | some image =>
        rw [hget] at h
        obtain ⟨-, rfl⟩ : image = target ∧ b.pairs = assigned := by simpa using h
        exact ⟨b, rfl⟩
      | none =>
        rw [hget] at h
        obtain rfl : b.pairs ++ [(node c ps, target)] = assigned := by simpa using h
        exact ⟨b.withPair _ _, Map.withPair_pairs (Map.get?_eq_none.mp hget) target⟩
    · rw [if_neg hvar] at h
      by_cases hc : target.connective = c
      · rw [if_pos hc] at h
        exact exists_map_of_unifyList (fun p hp t b assigned h => ih p hp h) h
      · simp [hc] at h

/-- Of the assignments of a pass a map can be made. -/
theorem exists_ofPairs_of_unify {vars : List Formula} {pattern target : Formula} {b : Map}
    {assigned : List (Formula × Formula)} (h : unify vars pattern target b.pairs = some assigned) :
    ∃ m, Map.ofPairs assigned = .ok m := by
  obtain ⟨m, hm⟩ := exists_map_of_unify h
  exact ⟨m, Map.ofPairs_eq_ok.mpr hm⟩

/-- A match is no error exactly when its preconditions hold, and then it is what one pass over the
pattern yields. -/
theorem matchPattern_eq_ok {target pattern : Formula} {vars : List Formula} {bindings : Map}
    {result : Option Map} :
    target.matchPattern pattern vars bindings = .ok result ↔
      (∀ v ∈ vars, v.IsAtomic ∧ target.contains v = false) ∧
        (∀ key ∈ bindings.keys, key ∈ vars) ∧
          unify vars pattern target bindings.pairs = result.map Map.pairs := by
  rw [← variableError?_eq_none, matchPattern]
  cases variableError? vars target with
  | some e => simp
  | none =>
    cases hkey : bindings.keys.find? (· ∉ vars) with
    | some key =>
      have hmem : key ∈ bindings.keys := List.mem_of_find?_eq_some hkey
      have hvar : key ∉ vars := by simpa using List.find?_some hkey
      simp only [reduceCtorEq, true_and, false_iff, not_and]
      exact fun h => absurd (h key hmem) hvar
    | none =>
      have hvars : ∀ key ∈ bindings.keys, key ∈ vars := by simpa using hkey
      simp only [true_and, and_iff_right hvars]
      cases unify vars pattern target bindings.pairs with
      | none => cases result <;> simp
      | some assigned =>
        rw [except_map_eq_ok]
        constructor
        · rintro ⟨m, hm, rfl⟩
          exact congrArg some (Map.ofPairs_eq_ok.mp hm).symm
        · intro h
          obtain ⟨m, rfl, hm⟩ := Option.map_eq_some_iff.mp h.symm
          exact ⟨m, Map.ofPairs_eq_ok.mpr hm, rfl⟩

/-- A match can only be refused for its variables and its bindings. -/
theorem matchPattern_eq_error_iff {target pattern : Formula} {vars : List Formula} {bindings : Map}
    {e : SyntaxError} :
    target.matchPattern pattern vars bindings = .error e ↔
      variableError? vars target = some e ∨
        variableError? vars target = none ∧
          ∃ key, bindings.keys.find? (· ∉ vars) = some key ∧ e = .notVariable key := by
  rw [matchPattern]
  cases variableError? vars target with
  | some e' => simp
  | none =>
    cases bindings.keys.find? (· ∉ vars) with
    | some key => simp [eq_comm]
    | none =>
      cases hunify : unify vars pattern target bindings.pairs with
      | none => simp
      | some assigned =>
        obtain ⟨m, hm⟩ := exists_ofPairs_of_unify hunify
        simp [hm]

/-- When its preconditions hold, a match comes to a result. -/
theorem exists_matchPattern_eq_ok {target : Formula} (pattern : Formula) {vars : List Formula}
    {bindings : Map}
    (hvars : ∀ v ∈ vars, v.IsAtomic ∧ target.contains v = false)
    (hkeys : ∀ key ∈ bindings.keys, key ∈ vars) :
    ∃ result, target.matchPattern pattern vars bindings = .ok result := by
  have hfine : variableError? vars target = none := variableError?_eq_none.mpr hvars
  have hbound : bindings.keys.find? (· ∉ vars) = none := by simpa using hkeys
  cases hmatch : target.matchPattern pattern vars bindings with
  | ok result => exact ⟨result, rfl⟩
  | error e =>
    rw [matchPattern_eq_error_iff, hfine, hbound] at hmatch
    simp at hmatch

/-- With atomic variables and bindings of variables, the one error is a variable in the target. -/
theorem matchPattern_eq_error {target pattern : Formula} {vars : List Formula} {bindings : Map}
    {e : SyntaxError} (hatomic : ∀ v ∈ vars, v.IsAtomic) (hkeys : bindings.keys ⊆ vars)
    (h : target.matchPattern pattern vars bindings = .error e) :
    ∃ v ∈ vars, target.contains v = true ∧ e = .variableOccurs v target := by
  have hnone : bindings.keys.find? (· ∉ vars) = none := by
    simpa using fun key hkey => hkeys hkey
  rw [matchPattern_eq_error_iff, hnone] at h
  have hvar : variableError? vars target = some e := by simpa using h
  obtain ⟨v, hv, hfound⟩ := List.exists_of_findSome?_eq_some hvar
  rw [if_neg (by simp [hatomic v hv])] at hfound
  split at hfound
  next hoccurs => exact ⟨v, hv, hoccurs, (Option.some.inj hfound).symm⟩
  next => simp at hfound

/-! ## What a successful pass has done -/

/-- Going through the patterns has led from the bindings `b` to the bindings `m`: they are kept in
their places, the variables of the patterns are bound behind them in the order of their first
occurrence, and the patterns become the targets. -/
structure Binds (vars patterns targets : List Formula) (b m : Map) : Prop where
  pairs : b.pairs <+: m.pairs
  keys : m.keys = appendNew b.keys ((preorderList patterns).filter (· ∈ vars))
  instantiates : patterns.map (·.substitute m) = targets

variable {vars : List Formula}

theorem Binds.keys_subset {ps ts : List Formula} {b m : Map} (h : Binds vars ps ts b m)
    (hb : b.keys ⊆ vars) : m.keys ⊆ vars := by
  intro key hkey
  rw [h.keys, mem_appendNew, List.mem_filter] at hkey
  rcases hkey with hkey | ⟨-, hvar⟩
  · exact hb hkey
  · simpa using hvar

theorem binds_nil (b : Map) : Binds vars [] [] b b where
  pairs := List.prefix_rfl
  keys := by simp [preorderList, appendNew]
  instantiates := rfl

/-- The bindings made for one pattern are still good after the patterns behind it. -/
theorem Binds.cons {p t : Formula} {ps ts : List Formula} {b m n : Map} (hb : b.keys ⊆ vars)
    (hp : Binds vars [p] [t] b m) (hps : Binds vars ps ts m n) :
    Binds vars (p :: ps) (t :: ts) b n where
  pairs := hp.pairs.trans hps.pairs
  keys := by
    rw [hps.keys, hp.keys, ← appendNew_append, ← List.filter_append]
    simp [preorderList]
  instantiates := by
    have hm : m.keys ⊆ vars := hp.keys_subset hb
    have hstable : p.substitute n = p.substitute m := by
      apply substitute_of_subset hps.pairs.subset
      intro χ hχ hn
      have hvar : χ ∈ vars := hps.keys_subset hm hn
      rw [hp.keys, mem_appendNew, List.mem_filter]
      exact .inr ⟨by simpa [preorderList] using hχ, by simpa using hvar⟩
    have ht : p.substitute m = t := by simpa using hp.instantiates
    rw [List.map_cons, hstable, ht, hps.instantiates]

theorem binds_variable {c : Connective} {target : Formula} {b m : Map}
    (hvar : node c [] ∈ vars) (hget : m.get? (node c []) = some target)
    (hpairs : b.pairs <+: m.pairs) (hkeys : m.keys = appendNew b.keys [node c []]) :
    Binds vars [node c []] [target] b m where
  pairs := hpairs
  keys := by simp [preorderList, preorder_node, hvar, hkeys]
  instantiates := by simp [substitute_node, hget]

/-- A formula that is no variable becomes the target when its terms become the target's terms. -/
theorem Binds.node {c : Connective} {ps : List Formula} {target : Formula} {b m : Map}
    (hb : b.keys ⊆ vars) (hvar : node c ps ∉ vars) (hc : target.connective = c)
    (h : Binds vars ps target.terms b m) : Binds vars [node c ps] [target] b m where
  pairs := h.pairs
  keys := by simp [preorderList, preorder_node, hvar, h.keys]
  instantiates := by
    have hnone : m.get? (Formula.node c ps) = none :=
      Map.get?_eq_none.mpr fun hkey => hvar (h.keys_subset hb hkey)
    rw [List.map_cons, List.map_nil, substitute_node, hnone, Option.getD_none, h.instantiates,
      ← hc, node_connective_terms]

theorem unifyList_binds {ps : List Formula}
    (ih : ∀ p ∈ ps, ∀ (t : Formula) (b m : Map), b.keys ⊆ vars →
      unify vars p t b.pairs = some m.pairs → Binds vars [p] [t] b m)
    {ts : List Formula} {b m : Map} (hb : b.keys ⊆ vars)
    (h : unifyList vars ps ts b.pairs = some m.pairs) : Binds vars ps ts b m := by
  induction ps generalizing ts b with
  | nil =>
    cases ts with
    | nil =>
      obtain rfl : b = m := Map.ext (by simpa [unifyList] using h)
      exact binds_nil b
    | cons t ts => simp [unifyList] at h
  | cons p ps ihps =>
    cases ts with
    | nil => simp [unifyList] at h
    | cons t ts =>
      rw [unifyList] at h
      cases hp : unify vars p t b.pairs with
      | none => simp [hp] at h
      | some assigned =>
        obtain ⟨b', rfl⟩ := exists_map_of_unify hp
        rw [hp] at h
        have hhead : Binds vars [p] [t] b b' := ih p (by simp) t b b' hb hp
        have htail : Binds vars ps ts b' m :=
          ihps (fun q hq => ih q (by simp [hq])) (hhead.keys_subset hb) h
        exact hhead.cons hb htail

/-- A pass that succeeds has kept the bindings, bound the variables of the pattern and made it
equal to the target. -/
theorem unify_binds (hatomic : ∀ v ∈ vars, v.IsAtomic) {pattern target : Formula} {b m : Map}
    (hb : b.keys ⊆ vars) (h : unify vars pattern target b.pairs = some m.pairs) :
    Binds vars [pattern] [target] b m := by
  induction pattern generalizing target b m with
  | node c ps ih =>
    rw [unify, Lookup.firstOf_map] at h
    by_cases hvar : node c ps ∈ vars
    · obtain rfl : ps = [] := hatomic _ hvar
      rw [if_pos hvar] at h
      cases hget : b.get? (node c []) with
      | some image =>
        rw [hget] at h
        obtain ⟨rfl, hpairs⟩ : image = target ∧ b.pairs = m.pairs := by simpa using h
        obtain rfl : b = m := Map.ext hpairs
        have hbound : node c [] ∈ b.keys := Map.mem_keys_of_get? hget
        exact binds_variable hvar hget List.prefix_rfl (by simp [appendNew, hbound])
      | none =>
        rw [hget] at h
        have hpairs : m.pairs = b.pairs ++ [(node c [], target)] := by simpa [eq_comm] using h
        have hfree : node c [] ∉ b.keys := Map.get?_eq_none.mp hget
        apply binds_variable hvar
        · exact Map.get?_eq_some.mpr (by simp [hpairs])
        · exact hpairs ▸ List.prefix_append _ _
        · simp [← Map.map_fst_pairs m, hpairs, appendNew, hfree]
    · rw [if_neg hvar] at h
      by_cases hc : target.connective = c
      · rw [if_pos hc] at h
        have hterms : Binds vars ps target.terms b m :=
          unifyList_binds (fun p hp t b m hb h => ih p hp hb h) hb h
        exact hterms.node hb hvar hc
      · simp [hc] at h

/-! ## A solution guides every step -/

/-- What a solution makes of a variable is what it binds the variable to, since the variable itself
does not occur in the target. -/
theorem get?_of_substitute_variable {c : Connective} {s : Map}
    (habsent : node c [] ∉ ((node c []).substitute s).preorder) :
    s.get? (node c []) = some ((node c []).substitute s) := by
  cases hget : s.get? (node c []) with
  | some image => simp [substitute_node, hget]
  | none =>
    have hstays : (node c []).substitute s = node c [] := by simp [substitute_node, hget]
    rw [hstays] at habsent
    exact absurd (mem_preorder_self _) habsent

theorem unifyList_of_solution {ps : List Formula} {s : Map}
    (ih : ∀ p ∈ ps, ∀ b : Map, b.pairs ⊆ s.pairs →
      (∀ v ∈ vars, v ∉ (p.substitute s).preorder) →
        ∃ m : Map, unify vars p (p.substitute s) b.pairs = some m.pairs ∧ m.pairs ⊆ s.pairs)
    {b : Map} (hb : b.pairs ⊆ s.pairs)
    (habsent : ∀ p ∈ ps, ∀ v ∈ vars, v ∉ (p.substitute s).preorder) :
    ∃ m : Map, unifyList vars ps (ps.map (·.substitute s)) b.pairs = some m.pairs ∧
      m.pairs ⊆ s.pairs := by
  induction ps generalizing b with
  | nil => exact ⟨b, rfl, hb⟩
  | cons p ps ihps =>
    obtain ⟨b', hp, hb'⟩ := ih p (by simp) b hb (habsent p (by simp))
    obtain ⟨m, hps, hm⟩ := ihps (fun q hq => ih q (by simp [hq])) hb'
      fun q hq => habsent q (by simp [hq])
    refine ⟨m, ?_, hm⟩
    rw [List.map_cons, unifyList, hp]
    exact hps

/-- When the bindings so far are among the pairs of a solution, the pass succeeds and the bindings
that it ends with are among them too. -/
theorem unify_of_solution (hatomic : ∀ v ∈ vars, v.IsAtomic) {s : Map} (hs : s.keys ⊆ vars)
    (pattern : Formula) {b : Map} (hb : b.pairs ⊆ s.pairs)
    (habsent : ∀ v ∈ vars, v ∉ (pattern.substitute s).preorder) :
    ∃ m : Map, unify vars pattern (pattern.substitute s) b.pairs = some m.pairs ∧
      m.pairs ⊆ s.pairs := by
  induction pattern generalizing b with
  | node c ps ih =>
    by_cases hvar : node c ps ∈ vars
    · obtain rfl : ps = [] := hatomic _ hvar
      have himage := get?_of_substitute_variable (habsent _ hvar)
      cases hget : b.get? (node c []) with
      | some image =>
        -- The variable is bound already, and the solution binds it in the same way.
        have hsame : image = (node c []).substitute s :=
          Option.some.inj ((Map.get?_mono hb hget).symm.trans himage)
        exact ⟨b, by simp [unify, Lookup.firstOf_map, hvar, hget, hsame], hb⟩
      | none =>
        have hfree : node c [] ∉ b.keys := Map.get?_eq_none.mp hget
        refine ⟨b.withPair (node c []) ((node c []).substitute s), ?_, ?_⟩
        · simp [unify, Lookup.firstOf_map, hvar, hget, Map.withPair_pairs hfree]
        · rw [Map.withPair_pairs hfree]
          exact List.append_subset.mpr ⟨hb, by simpa using Map.get?_eq_some.mp himage⟩
    · have hnone : s.get? (node c ps) = none :=
        Map.get?_eq_none.mpr fun hkey => hvar (hs hkey)
      have hsubst : (node c ps).substitute s = node c (ps.map (·.substitute s)) := by
        simp [substitute_node, hnone]
      rw [hsubst] at habsent ⊢
      obtain ⟨m, hm, hsub⟩ := unifyList_of_solution (fun p hp b hb => ih p hp hb) hb
        fun p hp v hv hmem =>
          habsent v hv (mem_preorder_of_term (List.mem_map_of_mem hp) hmem)
      exact ⟨m, by simp [unify, hvar, hm], hsub⟩

/-! ## The match -/

theorem unify_solves (hatomic : ∀ v ∈ vars, v.IsAtomic) {pattern target : Formula}
    {bindings m : Map} (hb : bindings.keys ⊆ vars)
    (hm : unify vars pattern target bindings.pairs = some m.pairs) :
    Solves vars bindings pattern target m := by
  have hbinds := unify_binds hatomic hb hm
  exact {
    keys := fun key hkey => hbinds.keys_subset hb hkey
    agrees := Map.agreesWith_iff.mpr hbinds.pairs.subset
    solves := by simpa using hbinds.instantiates }

/-- A pass succeeds exactly when there is a solution. -/
theorem unify_isSome_iff (hatomic : ∀ v ∈ vars, v.IsAtomic) {pattern target : Formula}
    {bindings : Map} (habsent : ∀ v ∈ vars, v ∉ target.preorder) (hb : bindings.keys ⊆ vars) :
    (unify vars pattern target bindings.pairs).isSome ↔
      ∃ s, Solves vars bindings pattern target s := by
  constructor
  · intro h
    obtain ⟨assigned, hassigned⟩ := Option.isSome_iff_exists.mp h
    obtain ⟨m, rfl⟩ := exists_map_of_unify hassigned
    exact ⟨m, unify_solves hatomic hb hassigned⟩
  · rintro ⟨s, hs⟩
    obtain ⟨m, hm, -⟩ := unify_of_solution hatomic hs.keys pattern
      (Map.agreesWith_iff.mp hs.agrees) (hs.solves.symm ▸ habsent)
    rw [hs.solves] at hm
    simp [hm]

/-- Every solution has the bindings that a pass over the pattern ends with. -/
theorem unify_agreesWith (hatomic : ∀ v ∈ vars, v.IsAtomic) {pattern target : Formula}
    {bindings m s : Map} (habsent : ∀ v ∈ vars, v ∉ target.preorder)
    (hm : unify vars pattern target bindings.pairs = some m.pairs)
    (hs : Solves vars bindings pattern target s) : m.AgreesWith s := by
  obtain ⟨n, hn, hsub⟩ := unify_of_solution hatomic hs.keys pattern
    (Map.agreesWith_iff.mp hs.agrees) (hs.solves.symm ▸ habsent)
  rw [hs.solves, hm] at hn
  obtain rfl : m = n := Map.ext (Option.some.inj hn)
  exact Map.agreesWith_iff.mpr hsub

/-- What a pass over the pattern adds to the bindings are the variables of the pattern that the
bindings lack, in the order of their first occurrence. -/
theorem Binds.exists_new {p t : Formula} {b m : Map} (h : Binds vars [p] [t] b m) :
    ∃ new, m.pairs = b.pairs ++ new ∧ new.map Prod.fst =
      (Enumeration.strip (p.preorder.filter fun v => v ∈ vars ∧ v ∉ b.keys)).elements := by
  obtain ⟨new, hnew⟩ := h.pairs
  refine ⟨new, hnew.symm, ?_⟩
  have hkeys : m.keys = b.keys ++ new.map Prod.fst := by
    rw [← Map.map_fst_pairs, ← hnew, List.map_append, Map.map_fst_pairs]
  rw [h.keys, appendNew_eq_append_strip, List.append_cancel_left_eq] at hkeys
  rw [← hkeys]
  simp [Enumeration.strip, preorderList, List.filter_filter, Bool.and_comm]

/-- Matching is sound, complete and principal.  Let the variables be atomic and not occur in the
target, and let the bindings bind variables.  Then the match is no error; it succeeds exactly when
there is a solution; and what it returns is a solution with which every solution agrees, namely the
bindings followed by the other variables of the pattern in the order of their first occurrence. -/
theorem matchPattern_principal {target : Formula} (pattern : Formula) {vars : List Formula}
    {bindings : Map} (hatomic : ∀ v ∈ vars, v.IsAtomic)
    (habsent : ∀ v ∈ vars, target.contains v = false)
    (hkeys : ∀ key ∈ bindings.keys, key ∈ vars) :
    ∃ result, target.matchPattern pattern vars bindings = .ok result ∧
      (result.isSome ↔ ∃ s, Solves vars bindings pattern target s) ∧
      ∀ m, result = some m →
        Solves vars bindings pattern target m ∧
        (∀ s, Solves vars bindings pattern target s → m.AgreesWith s) ∧
        ∃ new, m.pairs = bindings.pairs ++ new ∧ new.map Prod.fst =
          (Enumeration.strip
            (pattern.preorder.filter fun v => v ∈ vars ∧ v ∉ bindings.keys)).elements := by
  have hmem : ∀ v ∈ vars, v ∉ target.preorder := by
    intro v hv h
    rw [← contains_iff_mem_preorder, habsent v hv] at h
    exact Bool.false_ne_true h
  obtain ⟨result, hmatch⟩ := exists_matchPattern_eq_ok pattern
    (fun v hv => ⟨hatomic v hv, habsent v hv⟩) hkeys
  obtain ⟨-, -, hresult⟩ := matchPattern_eq_ok.mp hmatch
  refine ⟨result, hmatch, ?_, ?_⟩
  · rw [← unify_isSome_iff hatomic hmem hkeys, hresult, Option.isSome_map]
  · rintro m rfl
    exact ⟨unify_solves hatomic hkeys hresult, fun s hs => unify_agreesWith hatomic hmem hresult hs,
      (unify_binds hatomic hkeys hresult).exists_new⟩

open Propositional in
/-- A variable that occurs twice in the pattern and one that is bound beforehand and listed
twice. -/
theorem matchPattern_repeated_variable :
    (∀ v ∈ [x, y, y], v.IsAtomic) ∧
    (∀ v ∈ [x, y, y], (implies p (implies q p)).contains v = false) ∧
    (∀ key ∈ (Map.empty.withPair y q).keys, key ∈ [x, y, y]) ∧
    ∃ m new, (implies p (implies q p)).matchPattern (implies x (implies y x)) [x, y, y]
        (Map.empty.withPair y q) = .ok (some m) ∧
      (implies x (implies y x)).substitute m = implies p (implies q p) ∧
      m.pairs = [(y, q)] ++ new ∧ new.map Prod.fst = [x] := by
  have hatomic : ∀ v ∈ [x, y, y], v.IsAtomic := by decide
  have habsent : ∀ v ∈ [x, y, y], (implies p (implies q p)).contains v = false := by decide
  have hkeys : ∀ key ∈ (Map.empty.withPair y q).keys, key ∈ [x, y, y] := by decide
  refine ⟨hatomic, habsent, hkeys, ?_⟩
  obtain ⟨result, hok, hiff, hresult⟩ :=
    matchPattern_principal (implies x (implies y x)) hatomic habsent hkeys
  have hsolution : Solves [x, y, y] (Map.empty.withPair y q) (implies x (implies y x))
      (implies p (implies q p)) ((Map.empty.withPair y q).withPair x p) := {
    keys := by decide
    agrees := by unfold Map.AgreesWith; decide
    solves := by decide }
  obtain ⟨m, rfl⟩ := Option.isSome_iff_exists.mp (hiff.mpr ⟨_, hsolution⟩)
  obtain ⟨hm, -, new, hpairs, hnew⟩ := hresult m rfl
  exact ⟨m, new, hok, hm.solves, hpairs, hnew.trans (by decide)⟩

end Formula

end Deduction
