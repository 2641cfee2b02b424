import PathQuery.Proofs.Walk.Branch

/-!
# What stands before a walk

A walk may start under bindings that were made before it. They are what its own bindings are put
on top of, and they change nothing else. It may also start at a path that leads up to it, and that
path is only what its own paths begin with.

Results:
1. `get?_bindAll`, `get?_bindAll_empty_iff`: of several bindings of a name, the last one counts.
2. `bindAll_congr`: if each name is bound to one text only, their order does not count.
3. `get?_onTopOf`: what bindings on top of others bind a name to.
4. `found_onTopOf`: the matches under earlier bindings are those under none, on top of them.
5. `found_below`: the matches from some path on are those from no path, with it before theirs.
-/

namespace PathQuery

namespace Bindings

variable (top base : Bindings)

theorem get?_bindAll (names : List (String × String)) (name : String) :
    (base.bindAll names).get? name = (names.reverse.lookup name).or (base.get? name) := by
  induction names generalizing base with
  | nil => rfl
  | cons entry names ih =>
    show (bindAll (base.insert entry.1 entry.2) names).get? name = _
    rw [ih, Dictionary.get?_insert, List.reverse_cons, List.lookup_append, Option.or_assoc,
      Entries.lookup_cons]
    split
    · rfl
    · rfl

/-- The last entry of the name has this text. -/
def IsLast (names : List (String × String)) (name text : String) : Prop :=
  ∃ earlier later, names = earlier ++ (name, text) :: later ∧ ∀ entry ∈ later, entry.1 ≠ name

theorem get?_bindAll_empty_iff {names : List (String × String)} {name text : String} :
    (bindAll .empty names).get? name = some text ↔ IsLast names name text := by
  rw [get?_bindAll, Dictionary.get?_empty, Option.or_none, List.lookup_eq_some_iff]
  constructor
  · rintro ⟨later, earlier, hnames, hlater⟩
    refine ⟨earlier.reverse, later.reverse, ?_, ?_⟩
    · have hreverse := congrArg List.reverse hnames
      simpa using hreverse
    · intro entry hentry
      exact (bne_iff_ne.1 (hlater entry (List.mem_reverse.1 hentry))).symm
  · rintro ⟨earlier, later, rfl, hlater⟩
    refine ⟨later.reverse, earlier.reverse, by simp, ?_⟩
    intro entry hentry
    exact bne_iff_ne.2 (hlater entry (List.mem_reverse.1 hentry)).symm

theorem exists_isLast_iff {names : List (String × String)} {name : String} :
    (∃ text, IsLast names name text) ↔ name ∈ names.map Prod.fst := by
  constructor
  · rintro ⟨text, earlier, later, rfl, -⟩
    simp
  · intro hname
    obtain ⟨text, htext⟩ : ∃ text, names.reverse.lookup name = some text := by
      rw [← Option.isSome_iff_exists, List.lookup_isSome_iff]
      obtain ⟨entry, hentry, rfl⟩ := List.mem_map.1 hname
      exact ⟨entry, List.mem_reverse.2 hentry, beq_self_eq_true _⟩
    refine ⟨text, get?_bindAll_empty_iff.1 ?_⟩
    rw [get?_bindAll, htext]
    rfl

/-- Among entries in which each name has one text only, any entry of a name is found. -/
theorem lookup_eq_some_iff_of_unique {names : List (String × String)}
    (hunique : ∀ entry ∈ names, ∀ other ∈ names, entry.1 = other.1 → entry = other)
    {name text : String} : names.lookup name = some text ↔ (name, text) ∈ names := by
  constructor
  · intro h
    obtain ⟨earlier, later, rfl, -⟩ := List.lookup_eq_some_iff.1 h
    simp
  · intro h
    obtain ⟨own, hown⟩ : ∃ own, names.lookup name = some own := by
      rw [← Option.isSome_iff_exists, List.lookup_isSome_iff]
      exact ⟨_, h, beq_self_eq_true _⟩
    obtain ⟨earlier, later, hnames, -⟩ := List.lookup_eq_some_iff.1 hown
    have hentry : (name, own) ∈ names := by
      rw [hnames]
      simp
    obtain rfl : own = text := congrArg Prod.snd (hunique _ hentry _ h rfl)
    exact hown

/-- If each name is bound to one text only, the order of the bindings does not count, and neither
does binding a name again. -/
theorem bindAll_congr {names names' : List (String × String)}
    (hsame : ∀ entry, entry ∈ names' ↔ entry ∈ names)
    (hunique : ∀ entry ∈ names, ∀ other ∈ names, entry.1 = other.1 → entry = other) :
    base.bindAll names' = base.bindAll names := by
  have hreverse {own : List (String × String)} (hown : ∀ entry, entry ∈ own ↔ entry ∈ names)
      (name text : String) : own.reverse.lookup name = some text ↔ (name, text) ∈ names := by
    rw [lookup_eq_some_iff_of_unique, List.mem_reverse, hown]
    intro entry hentry other hother
    rw [List.mem_reverse, hown] at hentry hother
    exact hunique entry hentry other hother
  apply Dictionary.ext_get?
  intro name
  rw [get?_bindAll, get?_bindAll]
  refine congrArg (Option.or · _) (Option.ext fun text => ?_)
  rw [hreverse hsame, hreverse fun _ => Iff.rfl]

/-- Bindings on top of others: where both bind a name, those on top count. -/
def onTopOf : Bindings := base.bindAll top.entries

/-- Of a sorted list, each name is bound once, so it does not matter from which end it is read. -/
theorem lookup_reverse {entries : List (String × String)} (h : Entries.Sorted entries)
    (name : String) : entries.reverse.lookup name = entries.lookup name := by
  induction entries with
  | nil => rfl
  | cons entry entries ih =>
    obtain ⟨hentry, hentries⟩ := List.pairwise_cons.1 h
    rw [List.reverse_cons, List.lookup_append, ih hentries, Entries.lookup_cons,
      Entries.lookup_cons]
    by_cases hname : name = entry.1
    · have hnone : entries.lookup name = none :=
        Entries.lookup_eq_none_of_lt fun other hother => hname ▸ hentry other hother
      rw [hnone, if_pos hname, if_pos hname]
      rfl
    · rw [if_neg hname, if_neg hname]
      exact Option.or_none

theorem get?_onTopOf (name : String) : (top.onTopOf base).get? name =
    (top.get? name).or (base.get? name) := by
  unfold onTopOf
  rw [get?_bindAll, lookup_reverse top.sorted]
  rfl

/-- Binding more names on top. -/
theorem bindAll_onTopOf (names : List (String × String)) :
    (top.onTopOf base).bindAll names = (top.bindAll names).onTopOf base := by
  apply Dictionary.ext_get?
  intro name
  rw [get?_bindAll, get?_onTopOf, get?_onTopOf, get?_bindAll, Option.or_assoc]

end Bindings

/-- The match on top of bindings that were made before it. -/
def Match.onTopOf (m : Match) (base : Bindings) : Match :=
  { m with bindings := m.bindings.onTopOf base }

/-- Bindings that were made before a walk are below those of its matches, and nothing else. -/
theorem Walk.found_onTopOf (functions : Registry) (steps : List Step) (place : String)
    (value : Json) (base top : Bindings) :
    found functions steps place value (top.onTopOf base) =
      (found functions steps place value top).map (Match.onTopOf · base) := by
  induction steps generalizing place value top with
  | nil =>
    rw [found_nil, found_nil]
    split
    · rfl
    · rfl
  | cons step rest ih =>
    -- The branches of a step do not depend on the bindings, so only what they bind is moved.
    rw [found_cons, found_cons, List.map_flatMap]
    apply List.flatMap_congr
    intro branch _
    rw [Bindings.bindAll_onTopOf, ih]

/-! ## The path before a walk -/

section Place

variable (start place : String)

theorem Hop.extend_append (hop : Hop) :
    hop.extend (start ++ place) = start ++ hop.extend place := by
  cases hop with
  | inward edge =>
    cases edge with
    | member key => simp only [extend, Walk.memberPlace, String.append_assoc]
    | element position => simp only [extend, Walk.elementPlace, String.append_assoc]
  | call name => simp only [extend, Walk.functionPlace, String.append_assoc]

def Branch.below (branch : Branch) : Branch := { branch with place := start ++ branch.place }

def Match.below (m : Match) : Match := { m with path := start ++ m.path }

namespace Step

theorem enter_append (step : Step) (edge : Edge) (child : Json) :
    step.enter (start ++ place) edge child = (step.enter place edge child).below start := by
  unfold enter Branch.below
  rw [Hop.extend_append]

theorem filterBranch?_append (functions : Registry) (clauses : List Clause) (child : Json)
    (position : Nat) :
    filterBranch? functions (start ++ place) clauses child position =
      (filterBranch? functions place clauses child position).map (Branch.below start) := by
  unfold filterBranch?
  rw [Option.map_map]
  congr 1
  funext texts
  simp only [Function.comp_apply, Branch.below, Walk.filterPlace, String.append_assoc]

/-- The path so far is what the paths of all branches begin with. -/
theorem branches_append (functions : Registry) (step : Step) (value : Json) :
    step.branches functions (start ++ place) value =
      (step.branches functions place value).map (Branch.below start) := by
  cases step with
  | key name =>
    cases value with
    | object members =>
      simp only [branches]
      cases members.lookup name with
      | none => rfl
      | some child => exact congrArg ([·]) (enter_append start place _ _ child)
    | _ => rfl
  | placeholder name =>
    cases value with
    | object members => simp only [branches, enter_append, List.map_map, Function.comp_def]
    | array items => simp only [branches, enter_append, List.map_map, Function.comp_def]
    | _ => rfl
  | passthrough =>
    cases value with
    | _ => rfl
  | function name =>
    cases hnull : value.isNull with
    | true =>
      cases value with
      | null => rfl
      | _ => cases hnull
    | false =>
      rw [branches_function functions _ hnull, branches_function functions _ hnull]
      cases functions.evaluate name value with
      | error error => rfl
      | ok result =>
        have hplace := Hop.extend_append start place (.call name)
        exact congrArg (fun own => [Branch.mk (some (.call name)) own [] result]) hplace
  | select selector =>
    cases value with
    | array items =>
      cases selector with
      | index position =>
        simp only [branches]
        cases items[position]? with
        | none => rfl
        | some child => exact congrArg ([·]) (enter_append start place _ _ child)
      | range start' stop => simp only [branches, enter_append, List.map_map, Function.comp_def]
      | filter clauses => simp only [branches, filterBranch?_append, List.map_filterMap]
    | _ =>
      cases selector with
      | _ => rfl

end Step

/-- A path before a walk is what its paths begin with, and nothing else. -/
theorem Walk.found_append_place (functions : Registry) (steps : List Step) (value : Json)
    (bindings : Bindings) :
    found functions steps (start ++ place) value bindings =
      (found functions steps place value bindings).map (Match.below start) := by
  induction steps generalizing place value bindings with
  | nil =>
    rw [found_nil, found_nil]
    split
    · rfl
    · rfl
  | cons step rest ih =>
    rw [found_cons, found_cons, Step.branches_append, List.flatMap_map, List.map_flatMap]
    apply List.flatMap_congr
    intro branch _
    exact ih branch.place branch.value _

/-- All that a walk takes from what stands before it are the bindings below its own and the path
before its own. -/
theorem Walk.found_below (functions : Registry) (steps : List Step) (value : Json)
    (bindings : Bindings) :
    found functions steps place value bindings =
      (found functions steps "" value .empty).map fun m => (m.onTopOf bindings).below place := by
  have hplace := found_append_place place "" functions steps value bindings
  have hbindings := found_onTopOf functions steps "" value bindings .empty
  rw [show Bindings.onTopOf .empty bindings = bindings from rfl] at hbindings
  rw [String.append_empty] at hplace
  rw [hplace, hbindings, List.map_map]
  rfl

end Place

end PathQuery
