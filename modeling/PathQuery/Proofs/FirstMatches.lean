import Mathlib.Data.List.FinRange
import PathQuery.Match

/-!
# The first match of each path

`Match.distinct` keeps a match unless one before it has the same path. It looks at paths only: what
is kept is kept as it is, with its own bindings and value, and stays in its place among the others.

The order of what is kept is told by positions. Matches may be equal, so it takes more than a list
of the right matches: each kept one stands at the first position that its path has.

Results:
1. `distinct_append`: what more matches add to those that are kept already.
2. `distinct_eq_self`: nothing is left out if all paths are different.
3. `distinct_eq_map_firsts`: the positions that are kept.
4. `distinct_keeps_first`: what is kept of any list of matches, and of two of them in a row.
-/

namespace PathQuery.Match

variable {found : List Match}

/-! ## Paths -/

theorem distinct_sublist (found : List Match) : (distinct found).Sublist found := by
  induction found with
  | nil => exact .slnil
  | cons m found ih => exact (List.filter_sublist.trans ih).cons_cons m

/-- No two matches that are kept have the same path. -/
theorem pairwise_distinct (found : List Match) :
    (distinct found).Pairwise fun m m' => m.path ≠ m'.path := by
  induction found with
  | nil => exact .nil
  | cons m found ih =>
    refine .cons (fun other hother => ?_) (ih.filter _)
    exact (of_decide_eq_true (List.mem_filter.1 hother).2).symm

/-- A path that is found is kept. -/
theorem mem_paths_distinct_iff {path : String} :
    path ∈ (distinct found).map Match.path ↔ path ∈ found.map Match.path := by
  refine ⟨fun h => ((distinct_sublist found).map _).subset h, fun h => ?_⟩
  induction found with
  | nil => exact h
  | cons m found ih =>
    rw [List.map_cons, List.mem_cons] at h
    rw [distinct, List.map_cons, List.mem_cons]
    by_cases hpath : path = m.path
    · exact .inl hpath
    · obtain ⟨other, hother, rfl⟩ := List.mem_map.1 (ih (h.resolve_left hpath))
      exact .inr (List.mem_map_of_mem (List.mem_filter.2 ⟨hother, decide_eq_true hpath⟩))

/-- Of more matches, those are kept that would be kept alone and whose path has not been met. -/
theorem distinct_append (found more : List Match) :
    distinct (found ++ more) =
      distinct found ++ (distinct more).filter fun m => m.path ∉ found.map path := by
  induction found with
  | nil => exact (List.filter_eq_self.2 fun _ _ => decide_eq_true List.not_mem_nil).symm
  | cons m found ih =>
    rw [List.cons_append, distinct, ih, List.filter_append, List.filter_filter, distinct,
      List.cons_append]
    congr 2
    refine List.filter_congr fun other _ => ?_
    simp [not_or]

/-- Nothing is left out if all paths are different. -/
theorem distinct_eq_self (h : found.Pairwise fun m m' => m.path ≠ m'.path) :
    distinct found = found := by
  induction h with
  | nil => rfl
  | @cons m found hm _ ih =>
    rw [distinct, ih]
    refine congrArg (m :: ·) (List.filter_eq_self.2 fun other hother => ?_)
    exact decide_eq_true (hm other hother).symm

/-! ## Positions -/

/-- No match before this position has the path of the one that stands there. -/
def IsFirst (found : List Match) (i : Fin found.length) : Prop :=
  ∀ j < i, found[j].path ≠ found[i].path

instance : DecidablePred (IsFirst found) := fun i =>
  inferInstanceAs (Decidable (∀ j < i, found[j].path ≠ found[i].path))

theorem isFirst_zero (m : Match) (found : List Match) : IsFirst (m :: found) 0 :=
  fun j hj => absurd hj (Fin.not_lt_zero j)

theorem isFirst_succ_iff {m : Match} {i : Fin found.length} :
    IsFirst (m :: found) i.succ ↔ found[i].path ≠ m.path ∧ IsFirst found i := by
  constructor
  · intro h
    exact ⟨(h 0 (Fin.succ_pos i)).symm, fun j hj => h j.succ (Fin.succ_lt_succ_iff.2 hj)⟩
  · rintro ⟨hm, h⟩ j
    cases j using Fin.cases with
    | zero => exact fun _ => hm.symm
    | succ j => exact fun hj => h j (Fin.succ_lt_succ_iff.1 hj)

/-- The positions of the first match of each path, from the first one on. -/
def firsts (found : List Match) : List (Fin found.length) :=
  (List.finRange found.length).filter (IsFirst found ·)

/-- The first match is kept, and so are the first ones of the others that have another path. -/
theorem firsts_cons (m : Match) (found : List Match) :
    firsts (m :: found) =
      (0 : Fin (found.length + 1)) ::
        ((firsts found).filter fun i => found[i].path ≠ m.path).map Fin.succ := by
  show (List.finRange (found.length + 1)).filter (fun i => decide (IsFirst (m :: found) i)) = _
  rw [List.finRange_succ, List.filter_cons, if_pos (decide_eq_true (isFirst_zero m found)),
    List.filter_map, firsts, List.filter_filter]
  congr 2
  refine List.filter_congr fun i _ => ?_
  show decide (IsFirst (m :: found) i.succ) = _
  simp only [isFirst_succ_iff, Bool.decide_and]

/-- What is kept stands at these positions. -/
theorem distinct_eq_map_firsts (found : List Match) :
    distinct found = (firsts found).map fun i => found[i] := by
  induction found with
  | nil => rfl
  | cons m found ih =>
    rw [distinct, ih, firsts_cons, List.map_cons, List.map_map, List.filter_map]
    rfl

theorem mem_firsts_iff {i : Fin found.length} : i ∈ firsts found ↔ IsFirst found i := by
  simp [firsts]

theorem pairwise_firsts (found : List Match) : (firsts found).Pairwise (· < ·) :=
  (List.pairwise_lt_finRange found.length).filter _

/-- Of any matches, the first one of each path is kept, as it is: those that are kept stand at the
positions before which their path does not occur, in this order. So no two of them share a path, no
path is lost, and keeping the first ones again changes nothing. Of more matches that come after
these, those are kept that would be kept alone, unless their path has been met before. -/
theorem distinct_keeps_first (found : List Match) :
    (distinct found).Sublist found ∧
    ((distinct found).map path).Nodup ∧
    (∀ path, path ∈ (distinct found).map Match.path ↔ path ∈ found.map Match.path) ∧
    (∃ positions : List (Fin found.length), positions.Pairwise (· < ·) ∧
      (∀ i, i ∈ positions ↔ ∀ j < i, found[j].path ≠ found[i].path) ∧
      distinct found = positions.map fun i => found[i]) ∧
    distinct (distinct found) = distinct found ∧
    ∀ more, distinct (found ++ more) =
      distinct found ++ (distinct more).filter fun m => m.path ∉ found.map path :=
  ⟨distinct_sublist found, List.pairwise_map.2 (pairwise_distinct found),
    fun _ => mem_paths_distinct_iff,
    ⟨firsts found, pairwise_firsts found, fun _ => mem_firsts_iff, distinct_eq_map_firsts found⟩,
    distinct_eq_self (pairwise_distinct found), distinct_append found⟩

example :
    distinct [⟨"$.a", .empty, .bool true⟩, ⟨"$.b", .empty, .null⟩, ⟨"$.a", .empty, .null⟩,
      ⟨"$.b", .empty, .null⟩] = [⟨"$.a", .empty, .bool true⟩, ⟨"$.b", .empty, .null⟩] := by
  decide

end PathQuery.Match
