import Mathlib.Data.List.Pairwise
import PathQuery.Proofs.Stages
import PathQuery.Proofs.Walk.Overlay
import PathQuery.Proofs.Walk.Route

/-!
# The order of clauses

A filter takes an element if all of its clauses hold for it. The clauses are tried in order, and
the first one that fails ends the search. Still the clauses of a filter are only a set: in which
order they stand and whether one stands there twice does not change which elements are taken, and
the rest of the walk cannot tell.

Two things do follow the order. The path of a match shows the clauses as they stand, and if two of
them bind the same name, the last one counts.

Results:
1. `Clause.value_resolveAll_map_iff`: the texts of a filter, given clause by clause.
2. `Clause.bindAll_filterBindings`: clauses in another order bind the same.
3. `Walk.found_sameClauses`: filters with the same clauses find the same.
4. `Engine.walked_reordered`: so do filters with their clauses in another order, and with one of
   them again at the end.
-/

namespace PathQuery

/-! ## One element -/

namespace Clause

variable {functions : Registry} {element : Json} {textOf : Clause → String}
  {clauses clauses' : List Clause}

/-- What a clause finds does not depend on where it stands. -/
theorem value_resolveAll_map_iff :
    (resolveAll functions element clauses).value = some (clauses.map textOf) ↔
      ∀ clause ∈ clauses, clause.Finds functions element (textOf clause) := by
  rw [value_resolveAll_eq_some_iff, List.forall₂_map_right_iff, List.forall₂_same]

/-- A filter that takes an element finds one text for each of its clauses. -/
theorem exists_textOf {texts : List String}
    (h : (resolveAll functions element clauses).value = some texts) :
    ∃ textOf : Clause → String, texts = clauses.map textOf := by
  rw [value_resolveAll_eq_some_iff] at h
  let textOf (clause : Clause) : String := (clause.resolve functions element).value.getD ""
  have htexts : List.Forall₂ (fun clause text => textOf clause = text) clauses texts := by
    refine h.imp fun clause text hfinds => ?_
    simp only [textOf, value_resolve_eq_some_iff.2 hfinds, Option.getD_some]
  refine ⟨textOf, ?_⟩
  rw [← List.forall₂_eq_eq_eq, List.forall₂_map_right_iff]
  exact htexts.flip.imp fun _ _ h => h.symm

/-- The same clauses in another order take the same elements, and find the same texts in them. -/
theorem resolveAll_sameClauses (hsame : ∀ clause, clause ∈ clauses' ↔ clause ∈ clauses) :
    ((resolveAll functions element clauses).value = none ∧
      (resolveAll functions element clauses').value = none) ∨
    ∃ textOf : Clause → String,
      (resolveAll functions element clauses).value = some (clauses.map textOf) ∧
      (resolveAll functions element clauses').value = some (clauses'.map textOf) := by
  have hiff : (∃ texts, (resolveAll functions element clauses').value = some texts) ↔
      ∃ texts, (resolveAll functions element clauses).value = some texts := by
    simp only [exists_value_resolveAll_iff, hsame]
  cases hvalue : (resolveAll functions element clauses).value with
  | none =>
    refine .inl ⟨rfl, ?_⟩
    rw [hvalue] at hiff
    exact Option.eq_none_iff_forall_ne_some.2 fun texts htexts => nomatch hiff.1 ⟨texts, htexts⟩
  | some texts =>
    obtain ⟨textOf, rfl⟩ := exists_textOf hvalue
    refine .inr ⟨textOf, rfl, value_resolveAll_map_iff.2 fun clause hclause => ?_⟩
    exact value_resolveAll_map_iff.1 hvalue clause ((hsame clause).1 hclause)

theorem filterBindings_map :
    Walk.filterBindings clauses (clauses.map textOf) =
      clauses.filterMap fun clause => clause.name?.map (·, textOf clause) := by
  unfold Walk.filterBindings
  rw [List.zipWith_map_right, List.zipWith_self, List.filterMap_map]
  exact congrArg (fun f => List.filterMap f _) (funext fun clause => binding?_eq clause _)

/-- No two clauses bind the same name. -/
def Separate (clauses : List Clause) : Prop := (clauses.filterMap name?).Nodup

theorem Separate.eq_of_name? (h : Separate clauses) {clause other : Clause}
    (hclause : clause ∈ clauses) (hother : other ∈ clauses) {name : String}
    (hname : clause.name? = some name) (hsame : other.name? = some name) : clause = other := by
  let Agrees (clause other : Clause) : Prop :=
    ∀ name, clause.name? = some name → other.name? = some name → clause = other
  have hsymm : Std.Symm Agrees :=
    ⟨fun _ _ hagrees name hname hsame => (hagrees name hsame hname).symm⟩
  have hpairwise : clauses.Pairwise Agrees := by
    refine (List.pairwise_filterMap.1 h).imp fun hne name hname hsame => ?_
    exact absurd rfl (hne name hname name hsame)
  exact hpairwise.forall_of_forall (fun _ _ _ _ _ => rfl) hclause hother name hname hsame

/-- If no two clauses bind the same name, the same clauses in another order bind the same. -/
theorem bindAll_filterBindings (hsame : ∀ clause, clause ∈ clauses' ↔ clause ∈ clauses)
    (hseparate : Separate clauses) (bindings : Bindings) :
    bindings.bindAll (Walk.filterBindings clauses' (clauses'.map textOf)) =
      bindings.bindAll (Walk.filterBindings clauses (clauses.map textOf)) := by
  rw [filterBindings_map, filterBindings_map]
  have hmem (entry : String × String) : entry ∈ (clauses.filterMap fun clause =>
      clause.name?.map (·, textOf clause)) ↔
      ∃ clause ∈ clauses, clause.name? = some entry.1 ∧ textOf clause = entry.2 := by
    simp only [List.mem_filterMap, Option.map_eq_some_iff, Prod.ext_iff,
      ↓existsAndEq, true_and]
  refine Bindings.bindAll_congr _ (fun entry => ?_) fun entry hentry other hother hname => ?_
  · simp only [List.mem_filterMap, hsame]
  · obtain ⟨clause, hclause, hbinds, htext⟩ := (hmem entry).1 hentry
    obtain ⟨clause', hclause', hbinds', htext'⟩ := (hmem other).1 hother
    obtain rfl := hseparate.eq_of_name? hclause hclause' hbinds (hname ▸ hbinds')
    exact Prod.ext hname (htext.symm.trans htext')

/-- Where two clauses bind one name, their order counts. -/
example :
    let first : Clause := ⟨"a", .bind "x"⟩
    let second : Clause := ⟨"b", .bind "x"⟩
    Bindings.bindAll .empty (Walk.filterBindings [first, second] ["1", "2"]) ≠
      Bindings.bindAll .empty (Walk.filterBindings [second, first] ["2", "1"]) := by decide

end Clause

/-! ## Walks -/

/-- Matches of two paths that differ only in one filter, at a match of what stands before it: they
have the same value, the same bindings unless two clauses bind one name, and the same path except
for the text of the filter, which shows the clauses of either path with the same texts. -/
structure Match.SameBut (starts : List Match) (clauses clauses' : List Clause) (m m' : Match) :
    Prop where
  value : m'.value = m.value
  bindings : Clause.Separate clauses → m'.bindings = m.bindings
  path : ∃ start ∈ starts, ∃ (textOf : Clause → String) (rest : String),
    m.path = Walk.filterPlace start.path clauses (clauses.map textOf) ++ rest ∧
    m'.path = Walk.filterPlace start.path clauses' (clauses'.map textOf) ++ rest

namespace Walk

theorem forall₂_flatMap {related : β → β → Prop} {f g : α → List β} {as : List α}
    (h : ∀ a ∈ as, List.Forall₂ related (f a) (g a)) :
    List.Forall₂ related (as.flatMap f) (as.flatMap g) := by
  have has : List.Forall₂ (fun a b => a = b ∧ a ∈ as) as as :=
    List.forall₂_same.2 fun a ha => ⟨rfl, ha⟩
  refine List.rel_flatMap has ?_
  rintro a _ ⟨rfl, ha⟩
  exact h a ha

variable (functions : Registry) {clauses clauses' : List Clause}

/-- Filters with the same clauses take the same elements of a list. -/
theorem found_filter_sameClauses (hsame : ∀ clause, clause ∈ clauses' ↔ clause ∈ clauses)
    (back : List Step) (value : Json) {start : Match} {starts : List Match}
    (hstart : start ∈ starts) :
    List.Forall₂ (Match.SameBut starts clauses clauses')
      (found functions (.select (.filter clauses) :: back) start.path value start.bindings)
      (found functions (.select (.filter clauses') :: back) start.path value start.bindings) := by
  cases value with
  | array items =>
    rw [found_filter, found_filter]
    refine forall₂_flatMap fun child _ => ?_
    rcases Clause.resolveAll_sameClauses hsame with ⟨hnone, hnone'⟩ | ⟨textOf, htexts, htexts'⟩
    · rw [hnone, hnone']
      exact .nil
    · -- Both walk on from the same element, and from there find the same.
      rw [htexts, htexts', Option.elim_some, Option.elim_some,
        found_below (filterPlace start.path clauses _),
        found_below (filterPlace start.path clauses' _)]
      refine List.forall₂_map_left_iff.2 (List.forall₂_map_right_iff.2 (List.forall₂_same.2 ?_))
      intro m _
      refine ⟨rfl, fun hseparate => ?_, start, hstart, textOf, m.path, rfl, rfl⟩
      exact congrArg m.bindings.onTopOf (Clause.bindAll_filterBindings hsame hseparate _)
  | _ =>
    rw [found_cons, found_cons]
    exact .nil

/-- So do filters in the middle of a path. -/
theorem found_sameClauses (hsame : ∀ clause, clause ∈ clauses' ↔ clause ∈ clauses)
    (front back : List Step) (place : String) (value : Json) (bindings : Bindings) :
    List.Forall₂
      (Match.SameBut (found functions front place value bindings) clauses clauses')
      (found functions (front ++ .select (.filter clauses) :: back) place value bindings)
      (found functions (front ++ .select (.filter clauses') :: back) place value bindings) := by
  rw [found_append, found_append]
  exact forall₂_flatMap fun start hstart =>
    found_filter_sameClauses functions hsame back start.value hstart

end Walk

/-- The clauses of a filter may be put in any order, and one of them may be repeated at its end: the
matches are the same ones, in the same order. They have the same values, the same bindings unless
two clauses bind one name, and the same paths except for the text of that filter. -/
theorem Engine.walked_reordered (settings : Settings) (before before' : List Operation)
    (front back : List Step) (clauses : List Clause) (place : String) (value : Json)
    (bindings : Bindings) :
    let starts := (walked settings before front place value bindings).1
    let filtered (before : List Operation) (clauses : List Clause) : List Match :=
      (walked settings before (front ++ .select (.filter clauses) :: back) place value bindings).1
    (∀ clauses' : List Clause, clauses'.Perm clauses →
      List.Forall₂ (Match.SameBut starts clauses clauses') (filtered before clauses)
        (filtered before' clauses')) ∧
    ∀ clause ∈ clauses,
      List.Forall₂ (Match.SameBut starts clauses (clauses ++ [clause])) (filtered before clauses)
        (filtered before' (clauses ++ [clause])) := by
  simp only [walked_eq_found]
  refine ⟨fun clauses' hperm => ?_, fun clause hclause => ?_⟩
  · exact Walk.found_sameClauses settings.functions (fun _ => hperm.mem_iff) front back place value
      bindings
  · refine Walk.found_sameClauses settings.functions (fun other => ?_) front back place value
      bindings
    rw [List.mem_append, List.mem_singleton, or_iff_left_iff_imp]
    rintro rfl
    exact hclause

/-- A filter that takes one of two elements, with its clauses the other way round, and with the
first of them once more. -/
theorem Engine.walked_reordered_of_two :
    let equal : Clause := ⟨"a", .oneOf "1" ["1"]⟩
    let bound : Clause := ⟨"b", .bind "x"⟩
    let list : Json := .array [.object [("a", .string "1"), ("b", .string "u")],
      .object [("a", .string "2"), ("b", .string "v")]]
    let filtered (clauses : List Clause) : List Match :=
      (walked ⟨.default, .builtins⟩ [] [.select (.filter clauses)] Walk.root list .empty).1
    let Same (m m' : Match) : Prop := m'.value = m.value ∧ m'.bindings = m.bindings
    (filtered [equal, bound]).map Match.path = ["$[?(@.a=1 && @.b=u)]"] ∧
    (filtered [bound, equal]).map Match.path = ["$[?(@.b=u && @.a=1)]"] ∧
    Clause.Separate [equal, bound] ∧
    [bound, equal].Perm [equal, bound] ∧
    List.Forall₂ Same (filtered [equal, bound]) (filtered [bound, equal]) ∧
    equal ∈ [equal, bound] ∧
    List.Forall₂ Same (filtered [equal, bound]) (filtered [equal, bound, equal]) := by
  intro equal bound list filtered Same
  have hpaths (clauses : List Clause) : (filtered clauses).map Match.path =
      (Walk.found .builtins [.select (.filter clauses)] Walk.root list .empty).map Match.path :=
    congrArg (fun walk => walk.1.map Match.path) (walked_eq_found _ _ _ _ _ _)
  have hseparate : Clause.Separate [equal, bound] := by
    unfold Clause.Separate
    decide
  have hperm : [bound, equal].Perm [equal, bound] := .swap equal bound []
  have hmem : equal ∈ [equal, bound] := List.mem_cons_self
  obtain ⟨hreordered, hrepeated⟩ :=
    walked_reordered ⟨.default, .builtins⟩ [] [] [] [] [equal, bound] Walk.root list .empty
  refine ⟨?_, ?_, hseparate, hperm, ?_, hmem, ?_⟩
  · rw [hpaths]
    decide +kernel
  · rw [hpaths]
    decide +kernel
  · exact (hreordered _ hperm).imp fun m m' h => ⟨h.value, h.bindings hseparate⟩
  · exact (hrepeated _ hmem).imp fun m m' h => ⟨h.value, h.bindings hseparate⟩

end PathQuery
