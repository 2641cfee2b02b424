import PathQuery.Proofs.FirstMatches
import PathQuery.Proofs.Path.Trail
import PathQuery.Proofs.Session.Transparency
import PathQuery.Proofs.Walk.Route

/-!
# Different matches have different paths

The path of a trail tells the trail. Each hop is written as a mark, which is a plain dot or a plain
opening bracket, and a body that has neither. So the text of a trail falls apart at its marks, and
the body between two of them belongs to one hop only: a key has no plain parenthesis, and a call has
one.

A path without filters finds no two matches with the same trail, so it finds no two matches with the
same path. Under filters it may, as a filter shows no position.

Results:
1. `Hop.glyphs_inj`: the glyphs of a hop tell the hop.
2. `Hop.foldl_extend_inj`: the path of a trail tells the trail.
3. `Engine.find_paths_nodup`: without filters, no two matches have the same path.
-/

namespace PathQuery

/-! ## Hops -/

namespace Glyph

theorem map_plain_inj {cs cs' : List Char} (h : cs.map plain = cs'.map plain) : cs = cs' :=
  List.map_injective_iff.2 (fun _ _ hplain => congrArg char hplain) h

theorem ofKey_inj {key key' : String} (h : ofKey key = ofKey key') : key = key' := by
  have hread := Path.readSegment_ofKey Dictionary.empty key
  rw [h, Path.readSegment_ofKey] at hread
  cases hread
  rfl

theorem ofCall_inj {name name' : String} (h : ofCall name = ofCall name') : name = name' :=
  String.toList_inj.1 (List.append_cancel_right (map_plain_inj h))

/-- A key is no call, as its parentheses are escaped. -/
theorem ofKey_ne_ofCall (key name : String) : ofKey key ≠ ofCall name := by
  intro h
  have hopen : plain '(' ∈ ofCall name :=
    List.mem_map_of_mem (List.mem_append_right _ List.mem_cons_self)
  exact not_mem_plain (fun glyph => inert_of_mem_ofKey) rfl (h ▸ hopen)

/-- The glyphs that a hop starts with. -/
def IsMark (glyph : Glyph) : Prop := glyph = plain '.' ∨ glyph = plain '['

/-- Two parts without marks are the same if what follows each of them is empty or starts with a
mark, and all together is the same. -/
theorem append_inj_of_isMark {first first' rest rest' : List Glyph}
    (hfirst : ∀ glyph ∈ first, ¬ glyph.IsMark) (hfirst' : ∀ glyph ∈ first', ¬ glyph.IsMark)
    (hrest : ∀ glyph ∈ rest.head?, glyph.IsMark) (hrest' : ∀ glyph ∈ rest'.head?, glyph.IsMark)
    (h : first ++ rest = first' ++ rest') : first = first' ∧ rest = rest' := by
  rcases List.append_eq_append_iff.1 h with ⟨between, rfl, rfl⟩ | ⟨between, rfl, rfl⟩
  · cases between with
    | nil => exact ⟨(List.append_nil first).symm, rfl⟩
    | cons glyph between =>
      exact absurd (hrest glyph rfl) (hfirst' glyph (List.mem_append_right _ List.mem_cons_self))
  · cases between with
    | nil => exact ⟨List.append_nil first', rfl⟩
    | cons glyph between =>
      exact absurd (hrest' glyph rfl) (hfirst glyph (List.mem_append_right _ List.mem_cons_self))

end Glyph

theorem Text.toString_inj {k k' : Nat} (h : toString k = toString k') : k = k' := by
  rw [← digitsValue_toString k, h, digitsValue_toString]

namespace Hop

/-- The glyphs of a hop tell the hop. -/
theorem glyphs_inj {hop hop' : Hop} (h : hop.glyphs = hop'.glyphs) : hop = hop' := by
  have hmarks : Glyph.plain '.' ≠ Glyph.plain '[' := by decide
  match hop, hop' with
  | .inward (.member key), .inward (.member key') =>
    exact congrArg (fun key => inward (.member key)) (Glyph.ofKey_inj (List.cons.inj h).2)
  | .inward (.member key), .inward (.element position) => exact absurd (List.cons.inj h).1 hmarks
  | .inward (.member key), .call name =>
    exact absurd (List.cons.inj h).2 (Glyph.ofKey_ne_ofCall key name)
  | .inward (.element position), .inward (.member key) =>
    exact absurd (List.cons.inj h).1 hmarks.symm
  | .inward (.element position), .inward (.element position') =>
    have hdigits := Glyph.map_plain_inj (List.append_cancel_right (List.cons.inj h).2)
    exact congrArg (fun k => inward (.element k)) (Text.toString_inj (String.toList_inj.1 hdigits))
  | .inward (.element position), .call name => exact absurd (List.cons.inj h).1 hmarks.symm
  | .call name, .inward (.member key) =>
    exact absurd (List.cons.inj h).2.symm (Glyph.ofKey_ne_ofCall key name)
  | .call name, .inward (.element position) => exact absurd (List.cons.inj h).1 hmarks
  | .call name, .call name' => exact congrArg call (Glyph.ofCall_inj (List.cons.inj h).2)

/-- A function on a hop has a name that can stand in a path. -/
def Writable : Hop → Prop
  | .inward _ => True
  | .call name => Segment.Callable name

/-- A hop is written as a mark and a body without marks, and nothing in it is a plain backslash. -/
theorem Writable.exists_glyphs {hop : Hop} (h : hop.Writable) :
    ∃ mark body, hop.glyphs = mark :: body ∧ mark.IsMark ∧
      ∀ c ∈ ['\\', '.', '['], Glyph.plain c ∉ body := by
  match hop with
  | .inward (.member key) =>
    have hspecial : ∀ c ∈ ['\\', '.', '['], Segment.isSpecial c = true := by
      simp [Segment.isSpecial]
    exact ⟨_, _, rfl, .inl rfl, fun c hc =>
      Glyph.not_mem_plain (fun glyph => Glyph.inert_of_mem_ofKey) (hspecial c hc)⟩
  | .inward (.element position) =>
    have hother : ∀ c ∈ ['\\', '.', '['], c.isAlphanum = false ∧ c ≠ ']' := by simp
    refine ⟨_, _, rfl, .inr rfl, fun c hc hmem => ?_⟩
    rcases List.mem_append.1 hmem with hdigit | hclose
    · obtain ⟨d, hd, hplain⟩ := List.mem_map.1 hdigit
      obtain rfl : d = c := congrArg Glyph.char hplain
      exact not_mem_digits (hother d hc).1 hd
    · exact (hother c hc).2 (congrArg Glyph.char (List.mem_singleton.1 hclose))
  | .call name => exact ⟨_, _, rfl, .inl rfl, fun c hc => plain_not_mem_ofCall h hc⟩

end Hop

/-! ## Trails -/

namespace Hop

variable {trail trail' : List Hop}

theorem isMark_of_head?_flatMap (h : ∀ hop ∈ trail, hop.Writable) :
    ∀ glyph ∈ (trail.flatMap glyphs).head?, glyph.IsMark := by
  cases trail with
  | nil => exact nofun
  | cons hop trail =>
    obtain ⟨mark, body, hglyphs, hmark, -⟩ := (h hop List.mem_cons_self).exists_glyphs
    rw [List.flatMap_cons, hglyphs]
    exact fun glyph hhead => Option.some.inj hhead ▸ hmark

theorem backslash_not_mem_flatMap (h : ∀ hop ∈ trail, hop.Writable) :
    .plain '\\' ∉ trail.flatMap glyphs := by
  intro hmem
  obtain ⟨hop, hhop, hmem⟩ := List.mem_flatMap.1 hmem
  obtain ⟨mark, body, hglyphs, hmark, hbody⟩ := (h hop hhop).exists_glyphs
  rw [hglyphs] at hmem
  rcases List.mem_cons.1 hmem with rfl | hmem
  · rcases hmark with hmark | hmark
    · cases hmark
    · cases hmark
  · exact hbody '\\' (by decide) hmem

/-- The glyphs of a trail tell the trail. -/
theorem flatMap_glyphs_inj (h : ∀ hop ∈ trail, hop.Writable) (h' : ∀ hop ∈ trail', hop.Writable)
    (heq : trail.flatMap glyphs = trail'.flatMap glyphs) : trail = trail' := by
  induction trail generalizing trail' with
  | nil =>
    cases trail' with
    | nil => rfl
    | cons hop' trail' =>
      obtain ⟨mark, body, hglyphs, -, -⟩ := (h' hop' List.mem_cons_self).exists_glyphs
      rw [List.flatMap_cons, hglyphs] at heq
      cases heq
  | cons hop trail ih =>
    obtain ⟨hhop, htrail⟩ := List.forall_mem_cons.1 h
    obtain ⟨mark, body, hglyphs, -, hbody⟩ := hhop.exists_glyphs
    cases trail' with
    | nil =>
      rw [List.flatMap_cons, hglyphs] at heq
      cases heq
    | cons hop' trail' =>
      obtain ⟨hhop', htrail'⟩ := List.forall_mem_cons.1 h'
      obtain ⟨mark', body', hglyphs', -, hbody'⟩ := hhop'.exists_glyphs
      have hnone {body : List Glyph} (hbody : ∀ c ∈ ['\\', '.', '['], Glyph.plain c ∉ body) :
          ∀ glyph ∈ body, ¬ glyph.IsMark := by
        rintro glyph hmem (rfl | rfl)
        · exact hbody '.' (by decide) hmem
        · exact hbody '[' (by decide) hmem
      rw [List.flatMap_cons, List.flatMap_cons, hglyphs, hglyphs', List.cons_append,
        List.cons_append] at heq
      obtain ⟨rfl, hbodies⟩ := List.cons.inj heq
      obtain ⟨rfl, hrest⟩ := Glyph.append_inj_of_isMark (hnone hbody) (hnone hbody')
        (isMark_of_head?_flatMap htrail) (isMark_of_head?_flatMap htrail') hbodies
      rw [glyphs_inj (hglyphs.trans hglyphs'.symm), ih htrail htrail' hrest]

/-- The path of a trail tells the trail. -/
theorem foldl_extend_inj {place : String} (h : ∀ hop ∈ trail, hop.Writable)
    (h' : ∀ hop ∈ trail', hop.Writable)
    (heq : trail.foldl extend place = trail'.foldl extend place) : trail = trail' := by
  refine flatMap_glyphs_inj h h' ?_
  have hchars := congrArg String.toList heq
  rw [toList_foldl_extend, toList_foldl_extend] at hchars
  have hglyphs := congrArg Glyph.ofChars (List.append_cancel_left hchars)
  rwa [Glyph.ofChars_writeAll (backslash_not_mem_flatMap h),
    Glyph.ofChars_writeAll (backslash_not_mem_flatMap h')] at hglyphs

end Hop

/-! ## Matches -/

namespace Walk

variable {functions : Registry} {steps : List Step} {value : Json}

/-- The functions on a route have names that can stand in a path. -/
theorem writable_of_leads (hfunctions : functions.Regular) {found : Json} {route : Route}
    (h : Leads functions steps value route found) : ∀ hop ∈ route.trail, hop.Writable := by
  induction h with
  | done => exact nofun
  | step htakes _ ih =>
    intro hop hhop
    rw [Route.trail_cons] at hhop
    rcases List.mem_append.1 hhop with hhere | hbelow
    · cases htakes with
      | stay => cases hhere
      | call _ hresult =>
        obtain rfl := List.mem_singleton.1 hhere
        exact hfunctions.callable (Registry.contains_of_evaluate_eq_ok hresult)
      | _ =>
        obtain rfl := List.mem_singleton.1 hhere
        trivial
    · exact ih hop hbelow

/-- Without filters, no two matches of a walk have the same path. -/
theorem pairwise_paths (hfunctions : functions.Regular) (hvalue : value.Ordered)
    (hsteps : ∀ step ∈ steps, step.isFilter = false) (place : String) (bindings : Bindings) :
    (found functions steps place value bindings).Pairwise fun m m' => m.path ≠ m'.path := by
  have hwritable {trail : List Hop} {m : Match}
      (h : (trail, m) ∈ tracked functions steps place value bindings) :
      ∀ hop ∈ trail, hop.Writable := by
    obtain ⟨route, _, hleads, -, rfl, -⟩ := (mem_tracked_iff hfunctions.keepsOrder hvalue).1 h
    exact writable_of_leads hfunctions hleads
  refine List.pairwise_map.2 ((pairwise_trails hfunctions.keepsOrder hvalue).imp_of_mem ?_)
  rintro ⟨trail, m⟩ ⟨trail', m'⟩ hm hm' hne heq
  have hpath := path_of_mem_tracked hfunctions.keepsOrder hvalue hsteps hm
  have hpath' := path_of_mem_tracked hfunctions.keepsOrder hvalue hsteps hm'
  exact hne (Hop.foldl_extend_inj (hwritable hm) (hwritable hm')
    (hpath.symm.trans (heq.trans hpath')))

end Walk

namespace Engine

variable {settings : Settings} {document : Json} {path : String} {steps : List Step}

/-- A search for distinct matches leaves out those whose path has been found before. -/
theorem run_findDistinct_memoryAfter (settings : Settings) (before : List Operation)
    (document : Json) (path : String) :
    ((findDistinct settings document path).run.run (Operation.memoryAfter settings before)).1 =
      (matchesOf settings .empty document path >>= fun found => .ok (Match.distinct found)) :=
  Operation.run_memoryAfter (Session.answers_bindExcept (answers_find settings document path)
    fun _ _ => Session.answers_pure _) before

/-- The matches of a path without filters have different paths, so a search for distinct matches
finds the same ones in the same order. This holds of every document and of every registry that is
built from words, whatever the engine is asked before each of them. -/
theorem find_paths_nodup {words : List String} (before before' : List Operation)
    (hwords : Registry.ofWords? words = some settings.functions) (hordered : document.Ordered)
    (hread : (Path.read settings path).result = .ok steps)
    (hsteps : ∀ step ∈ steps, step.isFilter = false) :
    ∃ found : List Match,
      ((find settings document path).run.run (Operation.memoryAfter settings before)).1 =
        .ok found ∧
      (found.map Match.path).Nodup ∧
      ((findDistinct settings document path).run.run
        (Operation.memoryAfter settings before')).1 = .ok found := by
  simp only [Operation.run_find_memoryAfter, run_findDistinct_memoryAfter, matchesOf_of_read hread]
  have hpaths : (if document.isEmpty then []
      else Walk.found settings.functions steps Walk.root document .empty).Pairwise
        fun m m' => m.path ≠ m'.path := by
    split
    · exact .nil
    · exact Walk.pairwise_paths (Registry.regular_ofWords? hwords) hordered hsteps _ _
  exact ⟨_, rfl, List.pairwise_map.2 hpaths, congrArg Except.ok (Match.distinct_eq_self hpaths)⟩

/-- Two matches whose paths would be the same if a dot in a key were not escaped. -/
theorem find_paths_nodup_of_dots :
    let settings : Settings := ⟨.default, .builtins⟩
    let document : Json := .object [("a", .object [("b.c", .bool true)]),
      ("a.b", .object [("c", .bool false)])]
    let path := "$.$\x7bk\x7d.$\x7bl\x7d"
    ∃ found : List Match,
      ((find settings document path).run.run (Operation.memoryAfter settings [])).1 = .ok found ∧
      found.map Match.path = ["$.a.b\\.c", "$.a\\.b.c"] ∧
      ((findDistinct settings document path).run.run
        (Operation.memoryAfter settings [.find document path, .parse "$["])).1 = .ok found := by
  intro settings document path
  have hwords : Registry.ofWords? ["builtins"] = some settings.functions := rfl
  have hordered : document.Ordered := by decide
  have hread : (Path.read ⟨.default, .builtins⟩ "$.$\x7bk\x7d.$\x7bl\x7d").result =
      .ok [.placeholder "k", .placeholder "l"] := by
    decide +kernel
  obtain ⟨found, hfind, -, hdistinct⟩ :=
    find_paths_nodup [] [.find document path, .parse "$["] hwords hordered hread (by decide)
  refine ⟨found, hfind, ?_, hdistinct⟩
  rw [Operation.eq_of_run_find hread hfind]
  decide +kernel

end Engine

end PathQuery
