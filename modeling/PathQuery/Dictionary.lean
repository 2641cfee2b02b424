/-!
# Entries sorted by name

A list of entries `(name, value)` is sorted when its names strictly increase in code point order,
so no name occurs twice. A `Dictionary` is such a list with its proof.

* `get?_insert` and `get?_erase` say what a later look-up finds.
* `ext_get?`: a dictionary is determined by its look-ups.
-/

namespace PathQuery

/-! ## Entry lists -/

namespace Entries

/-- The names strictly increase. -/
def Sorted (entries : List (String × α)) : Prop :=
  entries.Pairwise fun a b => a.1 < b.1

instance (entries : List (String × α)) : Decidable (Sorted entries) :=
  inferInstanceAs (Decidable (List.Pairwise _ _))

/-- Puts an entry at its place, over an entry of the same name. -/
def insert (name : String) (value : α) : List (String × α) → List (String × α)
  | [] => [(name, value)]
  | entry :: entries =>
    if name < entry.1 then (name, value) :: entry :: entries
    else if name = entry.1 then (name, value) :: entries
    else entry :: insert name value entries

def erase (name : String) (entries : List (String × α)) : List (String × α) :=
  entries.filter fun entry => entry.1 ≠ name

/-- The entries in order; of a repeated name the last one counts. -/
def ofList (entries : List (String × α)) : List (String × α) :=
  entries.foldl (fun sorted entry => insert entry.1 entry.2 sorted) []

theorem mem_insert {name : String} {value : α} {entries : List (String × α)} {e : String × α}
    (h : e ∈ insert name value entries) : e = (name, value) ∨ e ∈ entries := by
  induction entries with
  | nil => simpa [insert] using h
  | cons entry entries ih =>
    simp only [insert] at h
    split at h
    · simpa using h
    · split at h
      · rcases List.mem_cons.1 h with h | h
        · exact .inl h
        · exact .inr (List.mem_cons_of_mem _ h)
      · rcases List.mem_cons.1 h with h | h
        · exact .inr (h ▸ List.mem_cons_self)
        · exact (ih h).imp_right (List.mem_cons_of_mem _)

theorem sorted_insert (name : String) (value : α) {entries : List (String × α)}
    (h : Sorted entries) : Sorted (insert name value entries) := by
  induction entries with
  | nil => simp [insert, Sorted]
  | cons entry entries ih =>
    have ⟨hentry, hentries⟩ := List.pairwise_cons.1 h
    simp only [insert]
    split
    · next hlt =>
      refine List.pairwise_cons.2 ⟨fun e he => ?_, h⟩
      rcases List.mem_cons.1 he with rfl | he
      · exact hlt
      · exact String.lt_trans hlt (hentry e he)
    · next hge =>
      split
      · next heq => exact List.pairwise_cons.2 ⟨fun e he => heq ▸ hentry e he, hentries⟩
      · next hne =>
        refine List.pairwise_cons.2 ⟨fun e he => ?_, ih hentries⟩
        rcases mem_insert he with rfl | he
        · exact Classical.byContradiction fun hle =>
            hne (String.le_antisymm (String.not_lt.1 hle) (String.not_lt.1 hge))
        · exact hentry e he

theorem sorted_erase (name : String) {entries : List (String × α)} (h : Sorted entries) :
    Sorted (erase name entries) := List.Pairwise.filter _ h

theorem sorted_ofList (entries : List (String × α)) : Sorted (ofList entries) := by
  suffices ∀ sorted : List (String × α), Sorted sorted →
      Sorted (entries.foldl (fun sorted entry => insert entry.1 entry.2 sorted) sorted) from
    this [] List.Pairwise.nil
  induction entries with
  | nil => exact fun _ h => h
  | cons entry entries ih => exact fun _ h => ih _ (sorted_insert _ _ h)

theorem mem_of_mem_ofList {entries : List (String × α)} {e : String × α} (h : e ∈ ofList entries) :
    e ∈ entries := by
  suffices ∀ sorted : List (String × α),
      e ∈ entries.foldl (fun sorted entry => insert entry.1 entry.2 sorted) sorted →
        e ∈ sorted ∨ e ∈ entries by
    simpa using this [] h
  clear h
  induction entries with
  | nil => exact fun _ h => .inl h
  | cons entry entries ih =>
    intro sorted h
    rcases ih _ h with h | h
    · rcases mem_insert h with rfl | h
      · exact .inr List.mem_cons_self
      · exact .inl h
    · exact .inr (List.mem_cons_of_mem _ h)

theorem lookup_cons (entry : String × α) (entries : List (String × α)) (key : String) :
    (entry :: entries).lookup key = if key = entry.1 then some entry.2 else entries.lookup key := by
  by_cases h : key = entry.1
  · rw [List.lookup_cons, if_pos h, beq_iff_eq.mpr h]
  · rw [List.lookup_cons, if_neg h, beq_false_of_ne h]

theorem lookup_insert (name : String) (value : α) (entries : List (String × α)) (key : String) :
    (insert name value entries).lookup key =
      if key = name then some value else entries.lookup key := by
  induction entries with
  | nil => simp [insert, lookup_cons]
  | cons entry entries ih =>
    simp only [insert]
    split
    · rw [lookup_cons]
    · split
      · next heq => by_cases h : key = name <;> simp [lookup_cons, h, heq ▸ h]
      · next hne =>
        rw [lookup_cons, lookup_cons, ih]
        by_cases h : key = entry.1
        · simp [h, Ne.symm hne]
        · simp [h]

theorem lookup_erase (name : String) (entries : List (String × α)) (key : String) :
    (erase name entries).lookup key = if key = name then none else entries.lookup key := by
  induction entries with
  | nil => simp [erase]
  | cons entry entries ih =>
    simp only [erase, List.filter_cons] at ih ⊢
    by_cases hentry : entry.1 = name
    · by_cases h : key = name
      · simpa [hentry, h] using ih
      · simpa [hentry, h, lookup_cons] using ih
    · by_cases h : key = entry.1
      · simp [hentry, h, lookup_cons]
      · simpa [hentry, h, lookup_cons] using ih

/-- A name below every name of the list is not found in it. -/
theorem lookup_eq_none_of_lt {key : String} {entries : List (String × α)}
    (h : ∀ e ∈ entries, key < e.1) : entries.lookup key = none := by
  induction entries with
  | nil => rfl
  | cons entry entries ih =>
    have hlt := h entry List.mem_cons_self
    have hne : key ≠ entry.1 := fun heq => String.lt_irrefl entry.1 (heq ▸ hlt)
    rw [lookup_cons, if_neg hne]
    exact ih fun e he => h e (List.mem_cons_of_mem _ he)

/-- In a sorted list a look-up finds every entry. -/
theorem lookup_eq_some_iff {entries : List (String × α)} (h : Sorted entries) {key : String}
    {value : α} : entries.lookup key = some value ↔ (key, value) ∈ entries := by
  induction entries with
  | nil => simp
  | cons entry entries ih =>
    have ⟨hentry, hentries⟩ := List.pairwise_cons.1 h
    rw [lookup_cons, List.mem_cons]
    by_cases hkey : key = entry.1
    · rw [if_pos hkey]
      constructor
      · rintro ⟨⟩
        exact .inl (Prod.ext hkey rfl)
      · rintro (rfl | hmem)
        · rfl
        · exact absurd (hkey ▸ hentry _ hmem) (String.lt_irrefl _)
    · rw [if_neg hkey, ih hentries]
      exact ⟨.inr, fun hmem => hmem.resolve_left fun heq => hkey (congrArg Prod.fst heq)⟩

/-- Of two sorted lists with the same look-ups, neither starts with a lower name. -/
theorem not_head_lt {a b : String × α} {as bs : List (String × α)} (hb : Sorted (b :: bs))
    (h : (a :: as).lookup a.1 = (b :: bs).lookup a.1) : ¬ a.1 < b.1 := fun hlt => by
  have hnone : (b :: bs).lookup a.1 = none := lookup_eq_none_of_lt fun e he => by
    rcases List.mem_cons.1 he with rfl | he
    · exact hlt
    · exact String.lt_trans hlt ((List.pairwise_cons.1 hb).1 e he)
  simp [hnone, lookup_cons] at h

/-- Sorted lists with the same look-ups are the same list. -/
theorem eq_of_lookup_eq {as bs : List (String × α)} (ha : Sorted as) (hb : Sorted bs)
    (h : ∀ key, as.lookup key = bs.lookup key) : as = bs := by
  induction as generalizing bs with
  | nil =>
    cases bs with
    | nil => rfl
    | cons b bs => simpa [lookup_cons] using h b.1
  | cons a as ih =>
    cases bs with
    | nil => simpa [lookup_cons] using h a.1
    | cons b bs =>
      have hname : a.1 = b.1 := String.le_antisymm
        (String.not_lt.1 (not_head_lt ha (h b.1).symm)) (String.not_lt.1 (not_head_lt hb (h a.1)))
      have hvalue : a.2 = b.2 := by
        have := h a.1
        simpa [lookup_cons, hname] using this
      have ⟨ha1, ha2⟩ := List.pairwise_cons.1 ha
      have ⟨hb1, hb2⟩ := List.pairwise_cons.1 hb
      have htail : as = bs := by
        refine ih ha2 hb2 fun key => ?_
        by_cases hkey : key = a.1
        · rw [lookup_eq_none_of_lt fun e he => hkey ▸ ha1 e he,
            lookup_eq_none_of_lt fun e he => hkey ▸ hname ▸ hb1 e he]
        · have := h key
          simpa [lookup_cons, hkey, hname ▸ hkey] using this
      rw [htail, Prod.ext hname hvalue]

end Entries

/-! ## Dictionaries -/

/-- Values by name, listed in the order of the names. -/
structure Dictionary (α : Type u) where
  entries : List (String × α)
  sorted : Entries.Sorted entries
  deriving DecidableEq

namespace Dictionary

def empty : Dictionary α := ⟨[], List.Pairwise.nil⟩

/-- The entries as a dictionary; of a repeated name the last one counts. -/
def ofList (entries : List (String × α)) : Dictionary α :=
  ⟨Entries.ofList entries, Entries.sorted_ofList entries⟩

def get? (d : Dictionary α) (name : String) : Option α := d.entries.lookup name

def insert (d : Dictionary α) (name : String) (value : α) : Dictionary α :=
  ⟨Entries.insert name value d.entries, Entries.sorted_insert name value d.sorted⟩

def erase (d : Dictionary α) (name : String) : Dictionary α :=
  ⟨Entries.erase name d.entries, Entries.sorted_erase name d.sorted⟩

def size (d : Dictionary α) : Nat := d.entries.length

def names (d : Dictionary α) : List String := d.entries.map Prod.fst

@[simp] theorem get?_empty (name : String) : (empty : Dictionary α).get? name = none := rfl

theorem get?_insert (d : Dictionary α) (name : String) (value : α) (key : String) :
    (d.insert name value).get? key = if key = name then some value else d.get? key :=
  Entries.lookup_insert name value d.entries key

theorem get?_erase (d : Dictionary α) (name key : String) :
    (d.erase name).get? key = if key = name then none else d.get? key :=
  Entries.lookup_erase name d.entries key

theorem mem_names_iff {d : Dictionary α} {name : String} :
    name ∈ d.names ↔ ∃ value, d.get? name = some value := by
  unfold names
  rw [List.mem_map]
  constructor
  · rintro ⟨entry, hentry, rfl⟩
    exact ⟨entry.2, (Entries.lookup_eq_some_iff d.sorted).2 hentry⟩
  · rintro ⟨value, hvalue⟩
    exact ⟨(name, value), (Entries.lookup_eq_some_iff d.sorted).1 hvalue, rfl⟩

theorem ext_get? {d e : Dictionary α} (h : ∀ name, d.get? name = e.get? name) : d = e := by
  obtain ⟨ds, hd⟩ := d
  obtain ⟨es, he⟩ := e
  obtain rfl := Entries.eq_of_lookup_eq hd he h
  rfl

end Dictionary

example : (Dictionary.ofList [("b", 1), ("a", 2), ("b", 3)]).entries = [("a", 2), ("b", 3)] := by
  decide

end PathQuery
