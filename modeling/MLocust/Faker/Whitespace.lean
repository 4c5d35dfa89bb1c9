/-
  MLocust.Faker.Whitespace

  White space in the path column of a model.

  Two models have the same columns, one written with white space in it and one
  without.  They go through the same row loop if no white space hides a marker
  (`rowLoop_written`).  Where some does, a run in which every array has one element
  tells the two apart, right after the first row concerned: the value of the row is
  not where it belongs (`get?_merge_misread`).
-/
import MLocust.Faker.ArraySize
import MLocust.Faker.Spacing

namespace MLocust.Faker

open Lib Lib.Program DataTree PyStr

variable {M : DocMerger} {d d' : Value} {s t : DocState} {cs ds : List Comp}

/-- The path of a row: its components before the last one, and the last one. -/
structure Column where
  above : List Component
  last : Component

namespace Column

/-- The components of the column. -/
def components (col : Column) : List Component := col.above ++ [col.last]

/-- The column as it is written, and without white space. -/
def written (col : Column) : PyStr := ['.'].intercalate (col.components.map Component.written)
def plain (col : Column) : PyStr := ['.'].intercalate (col.components.map Component.plain)

/-- No white space hides a marker of the column: components before the last one end with
    their marker, and so does the last one unless its marker stands right after its first
    character. -/
structure Harmless (col : Column) : Prop where
  above : ∀ c ∈ col.above, c.marked → endsWithMarker c.written
  last : col.last.marked → endsWithMarker col.last.written ∨ marker <+: col.last.written.tail

end Column

/-- The rows of a model with the given column texts. -/
def rowsOf (text : Column → PyStr) (model : List (Column × Gen)) : List Row :=
  model.map fun r => ⟨text r.1, r.2⟩

variable {col : Column} {columns : List Column} {model : List (Column × Gen)}

-- ============================================================================
-- Columns as paths
-- ============================================================================

theorem splitDot_components {text : Component → PyStr} (h : ∀ c, '.' ∉ text c) (col : Column) :
    splitDot (['.'].intercalate (col.components.map text)) = col.components.map text := by
  apply List.splitOn_intercalate
  · intro l hl
    obtain ⟨c, _, rfl⟩ := List.mem_map.mp hl
    exact h c
  · rw [Column.components, List.map_append]
    exact List.append_ne_nil_of_right_ne_nil _ (List.cons_ne_nil _ _)

theorem path_written (g : Gen) : Row.path ⟨col.written, g⟩ = col.components.map Component.written :=
  splitDot_components (fun c => c.spaced.no_dot) col

theorem path_plain (g : Gen) : Row.path ⟨col.plain, g⟩ = col.components.map Component.plain :=
  splitDot_components (fun c => c.spaced_plain.no_dot) col

theorem comps_concat (path : List PyStr) (component : PyStr) :
    comps (path ++ [component]) = path.map readComp ++ [⟨stripName component, false⟩] :=
  comps_append path (List.cons_ne_nil component [])

theorem comps_components (text : Component → PyStr) (col : Column) :
    comps (col.components.map text) =
      (col.above.map fun c => readComp (text c)) ++ [⟨stripName (text col.last), false⟩] := by
  rw [Column.components, List.map_append, List.map_singleton, comps_concat, List.map_map]
  rfl

theorem walkable_of_forall {path : List PyStr} (hne : path ≠ [])
    (h : ∀ c ∈ path, c ≠ [] ∧ ¬ startsWithParen c) : Walkable path := by
  by_contra hwalk
  rcases (not_walkable_iff hne).mp hwalk with ⟨c, hc, hnil⟩ | ⟨c, hc, _, hparen⟩
  · exact (h c hc).1 hnil
  · exact (h c (List.dropLast_subset _ hc)).2 hparen

theorem walkable_components {text : Component → PyStr}
    (h : ∀ c, Spaced c.name c.marked (text c)) (col : Column) :
    Walkable (col.components.map text) := by
  refine walkable_of_forall ?_ fun c hc => ?_
  · rw [Column.components, List.map_append]
    exact List.append_ne_nil_of_right_ne_nil _ (List.cons_ne_nil _ _)
  · obtain ⟨c, _, rfl⟩ := List.mem_map.mp hc
    exact (h c).walkable

theorem walkable_written (g : Gen) : Walkable (Row.path ⟨col.written, g⟩) := by
  rw [path_written]
  exact walkable_components Component.spaced col

theorem walkable_plain (g : Gen) : Walkable (Row.path ⟨col.plain, g⟩) := by
  rw [path_plain]
  exact walkable_components Component.spaced_plain col

-- ============================================================================
-- Columns without hidden markers
-- ============================================================================

theorem readComp_kept {c : Component} (h : c.marked → endsWithMarker c.written) :
    readComp c.written = readComp c.plain := by
  obtain ⟨hname, hmark⟩ := c.spaced.kept h
  obtain ⟨hname', hmark'⟩ := c.spaced_plain.kept c.endsWithMarker_plain
  rw [readComp, readComp, hname, hmark, hname', hmark']

/-- The name of the last component is read right if its marker is not hidden, or stands right
    after the first character. -/
theorem stripName_last_iff {c : Component} :
    stripName c.written = stripName c.plain ↔
      (c.marked → endsWithMarker c.written ∨ marker <+: c.written.tail) := by
  obtain ⟨hplain, _⟩ := c.spaced_plain.kept c.endsWithMarker_plain
  rw [hplain]
  by_cases hkept : c.marked → endsWithMarker c.written
  · exact iff_of_true (c.spaced.kept hkept).1 fun h => Or.inl (hkept h)
  · obtain ⟨hmark, hlost⟩ := Classical.not_imp.mp hkept
    have hspaced := c.spaced
    rw [hmark] at hspaced
    rw [hspaced.lost hlost]
    by_cases hpre : marker <+: c.written.tail
    · rw [if_pos hpre]
      exact iff_of_true rfl fun _ => Or.inr hpre
    · rw [if_neg hpre]
      refine iff_of_false (fun h => ?_) fun h => (h hmark).elim hlost hpre
      exact absurd (List.self_eq_append_right.mp h.symm) (by decide)

/-- A harmless column is read like the one without white space. -/
theorem comps_of_harmless (h : col.Harmless) (g : Gen) :
    comps (Row.path ⟨col.written, g⟩) = comps (Row.path ⟨col.plain, g⟩) := by
  rw [path_written, path_plain, comps_components, comps_components,
    stripName_last_iff.mpr h.last, List.map_congr_left fun c hc => readComp_kept (h.above c hc)]

theorem mergeRow_of_comps {p q : PyStr} {g : Gen} (hp : Walkable (Row.path ⟨p, g⟩))
    (hq : Walkable (Row.path ⟨q, g⟩)) (h : comps (Row.path ⟨p, g⟩) = comps (Row.path ⟨q, g⟩)) :
    mergeRow M d ⟨p, g⟩ = mergeRow M d ⟨q, g⟩ := by
  rw [mergeRow, mergeRow, procpath_eq hp, procpath_eq hq, h]

/-- **White space that hides no marker never matters.**  The row loops over the two models are
    the same program. -/
theorem rowLoop_written (h : ∀ r ∈ model, r.1.Harmless) :
    rowLoop M d (rowsOf Column.written model) = rowLoop M d (rowsOf Column.plain model) := by
  induction model generalizing d with
  | nil => rfl
  | cons r model ih =>
      obtain ⟨hr, hmodel⟩ := List.forall_mem_cons.mp h
      rw [rowsOf, rowsOf, List.map_cons, List.map_cons, rowLoop, rowLoop, List.foldlM_cons,
        List.foldlM_cons, mergeRow_of_comps (walkable_written r.2) (walkable_plain r.2)
          (comps_of_harmless hr r.2)]
      exact congrArg _ (funext fun e => ih hmodel)

-- ============================================================================
-- Columns with a hidden marker
-- ============================================================================

/-- The second path misreads the first one: where they part, the names are different, or the
    first path goes into an array and the second one into an object. -/
def Misread : List Comp → List Comp → Prop
  | c :: cs, d :: ds =>
      c.name ≠ d.name ∨ (c.array ∧ ¬ d.array ∧ ds ≠ []) ∨ (c.array = d.array ∧ Misread cs ds)
  | _, _ => False

theorem misread_of_hidden {above : List Component} {last : Component}
    (h : ¬ ((∀ c ∈ above, c.marked → endsWithMarker c.written) ∧
      (last.marked → endsWithMarker last.written ∨ marker <+: last.written.tail))) :
    Misread ((above.map fun c => readComp c.plain) ++ [⟨stripName last.plain, false⟩])
      ((above.map fun c => readComp c.written) ++ [⟨stripName last.written, false⟩]) := by
  induction above with
  | nil =>
      refine Or.inl fun hname => h ⟨fun c hc => (nomatch hc), ?_⟩
      exact stripName_last_iff.mp hname.symm
  | cons c above ih =>
      by_cases hkept : c.marked → endsWithMarker c.written
      · refine Or.inr (Or.inr ⟨?_, ih fun hrest => h ⟨?_, hrest.2⟩⟩)
        · exact congrArg Comp.array (readComp_kept hkept).symm
        · exact List.forall_mem_cons.mpr ⟨hkept, hrest.1⟩
      · obtain ⟨hmark, hlost⟩ := Classical.not_imp.mp hkept
        refine Or.inr (Or.inl ⟨c.endsWithMarker_plain hmark, hlost, ?_⟩)
        exact List.append_ne_nil_of_right_ne_nil _ (List.cons_ne_nil _ _)

theorem misread_of_not_harmless (h : ¬ col.Harmless) (g : Gen) :
    Misread (comps (Row.path ⟨col.plain, g⟩)) (comps (Row.path ⟨col.written, g⟩)) := by
  rw [path_written, path_plain, comps_components, comps_components]
  exact misread_of_hidden fun hboth => h ⟨hboth.1, hboth.2⟩

/-- A misread row puts nothing where the row belongs, and may take away what is there. -/
theorem get?_merge_misread {len : PyStr → Nat} {o : Option Value} {r : Value}
    {g : List Nat → Value} {is : List Nat} (h : Misread cs ds)
    (hm : M.mergeInto o (tree len ds g) = .ok r) (his : is ∈ indices len cs) :
    r.get? (place cs is) = o.bind (get? (place cs is)) ∨ r.get? (place cs is) = none := by
  induction cs generalizing o r ds g is with
  | nil => exact h.elim
  | cons c cs ih =>
      cases ds with
      | nil => exact h.elim
      | cons d ds =>
          obtain ⟨w, hw, hr, hother⟩ := mergeInto_tree hm
          by_cases hname : c.name = d.name
          · rcases h.resolve_left (fun hne => hne hname) with ⟨hc, hd, hds⟩ | ⟨harr, hmis⟩
            · -- the row has become an object here, which has no elements
              right
              obtain ⟨i, js, _, _, rfl⟩ := (mem_indices_array hc).mp his
              obtain ⟨d', ds, rfl⟩ := List.exists_cons_of_ne_nil hds
              rw [branch_object hd] at hw
              obtain ⟨z, _, hkey, _⟩ := mergeInto_tree hw
              rw [place_array hc, hname, get?_cons, hr, Option.bind_some]
              cases w with
              | atom a => exact get?_cons_atom _ _ _
              | list xs =>
                  rw [get?_key_list] at hkey
                  cases hkey
              | dict kvs => rfl
            · by_cases hc : c.array
              · have hd : d.array := harr ▸ hc
                obtain ⟨i, js, hi, hjs, rfl⟩ := (mem_indices_array hc).mp his
                obtain ⟨zs, rfl, hlen, _, hels⟩ := mergeInto_branch hd hw
                rw [place_array hc, hname, get?_cons, hr, Option.bind_some, get?_cons,
                  get?_idx_singleton, bind_get?_cons, bind_get?_cons]
                cases hzi : zs[i]? with
                | some z => exact ih hmis (hels i z hzi).2 hjs
                -- the merged list ends before this element
                | none => exact Or.inr rfl
              · have hd : ¬ d.array := fun hd => hc (harr ▸ hd)
                rw [indices_object hc] at his
                rw [branch_object hd] at hw
                rw [place_object hc, hname, get?_cons, hr, Option.bind_some, bind_get?_cons]
                exact ih hmis hw his
          -- misread under another name, the row goes somewhere else
          · left
            exact get?_place_congr (hother c.name hname) is

-- ============================================================================
-- Runs in which every array has one element
-- ============================================================================

/-- No array has more than one element so far, and none will be drawn that has. -/
structure OneElement (s : DocState) : Prop where
  size : s.world.maxArraySize = 1
  counts : ∀ k n, s.counts k = some n → n = 1

/-- The lengths of such a run. -/
def one : PyStr → Nat := fun _ => 1

theorem lookupCount_one (hs : OneElement s) (name : PyStr) :
    ∃ t, lookupCount name s = .ok 1 t ∧ OneElement t := by
  obtain ⟨n, t, h⟩ : ∃ n t, lookupCount name s = .ok n t := by
    cases hc : s.counts name with
    | some n => exact ⟨n, s, lookupCount_of_some hc⟩
    | none =>
        have hsize : 1 ≤ s.world.maxArraySize := le_of_eq hs.size.symm
        obtain ⟨n, w, hn⟩ := randintFromOne_exists hsize s.world
        refine ⟨n, ⟨Function.update s.counts name (some n), w⟩, ?_⟩
        rw [lookupCount_of_none hc, hn]
  obtain ⟨hn, hdrawn⟩ := lookupCount_eq_ok h
  have hcounts : ∀ k m, t.counts k = some m → m = 1 := by
    intro k m hm
    rcases hdrawn.new k m hm with hold | ⟨_, hle⟩
    · exact hs.counts k m hold
    · rw [hs.size] at hle
      have hpos := m.pos
      have hone : (m : Nat) = 1 := by omega
      exact PNat.eq hone
  obtain rfl := hcounts name n hn
  exact ⟨t, h, hdrawn.maxArraySize.trans hs.size, hcounts⟩

theorem drawLengths_one (hs : OneElement s) (ks : List PyStr) :
    ∃ t, drawLengths ks s = .ok ⟨⟩ t ∧ OneElement t := by
  induction ks generalizing s with
  | nil => exact ⟨s, rfl, hs⟩
  | cons k ks ih =>
      obtain ⟨t, hk, ht⟩ := lookupCount_one hs k
      obtain ⟨u, hu, hone⟩ := ih ht
      exact ⟨u, bind_eq_ok.mpr ⟨1, t, hk, hu⟩, hone⟩

theorem fill_ret (len : PyStr → Nat) (v : PyValue) (cs : List Comp) :
    fill len (.ret v) cs = pure (valueTree len cs fun _ => v) := by
  induction cs with
  | nil => rfl
  | cons c cs ih =>
      have hall : ∀ l : List Nat, (l.mapM fun _ => fill len (.ret v) cs) =
          pure (l.map fun _ => valueTree len cs fun _ => v) := by
        intro l
        rw [ih]
        exact List.mapM_pure ..
      show _ = pure (tree len (c :: cs) fun _ => v.val)
      by_cases hc : c.array
      · rw [fill, if_pos hc, hall, pure_bind, tree_cons, branch_array hc]
        rfl
      · rw [fill, if_neg hc, ih, pure_bind, tree_cons, branch_object hc]
        rfl

/-- A row that returns a constant, in such a run. -/
theorem mergeRow_one {p : PyStr} {v : PyValue} (hwalk : Walkable (Row.path ⟨p, .ret v⟩))
    (hs : OneElement s) : ∃ t, OneElement t ∧ ∀ {d d' u},
      mergeRow M d ⟨p, .ret v⟩ s = .ok d' u ↔
        M.merge d (valueTree one (comps (Row.path ⟨p, .ret v⟩)) fun _ => v) = .ok d' ∧ t = u := by
  obtain ⟨t, ht, hone⟩ := drawLengths_one hs (arrayNames (comps (Row.path ⟨p, .ret v⟩)))
  have hlen : ∀ k ∈ arrayNames (comps (Row.path ⟨p, .ret v⟩)), t.counts.len k = one k := by
    intro k hk
    obtain ⟨n, hn⟩ := (drawLengths_eq_ok ht).present k hk
    rw [Counts.len_of_some hn, hone.counts k n hn]
    rfl
  have hrun : procpath (Row.path ⟨p, .ret v⟩) (.ret v) s =
      .ok (valueTree one (comps (Row.path ⟨p, .ret v⟩)) fun _ => v) t := by
    rw [procpath_eq hwalk, rowRun, bind_of_ok ht, bind_of_ok (get_apply t), fill_ret,
      onWorld_pure, valueTree, tree_congr_len _ hlen]
    rfl
  refine ⟨t, hone, fun {d d' u} => ?_⟩
  rw [mergeRow, bind_of_ok hrun, fromExcept_eq_ok]

/-- Every list of the document has one element. -/
def OneEach (d : Value) : Prop := ∀ ks, ListsAlong (fun _ n => n = 1) ks d

/-- An integer can be merged at every leaf of a path, and is then found there. -/
theorem merge_one {p : List PyStr} (hp : p ≠ []) (hd : OneEach d) (x : Int) :
    ∃ d', M.merge d (valueTree one (comps p) fun _ => .int x) = .ok d' ∧ OneEach d' ∧
      ∀ is ∈ indices one (comps p), d'.get? (place (comps p) is) = some (.atom (.int x)) := by
  obtain ⟨cs, c, hcs, hc⟩ := comps_eq_append hp
  have hatom : (PyValue.int x).val.IsAtom := trivial
  obtain ⟨d', hd'⟩ : ∃ d', M.merge d (valueTree one (cs ++ [c]) fun _ => .int x) = .ok d' := by
    apply exists_mergeInto_tree (o := some d) hc
    · rintro b hb
      cases hb
      exact (hd (names cs)).mono fun _ _ h => le_of_eq h
    · exact fun is _ => ⟨_, mergeInto_of_isAtom hatom⟩
  rw [hcs]
  refine ⟨d', hd', fun ks => ?_, fun is his => ?_⟩
  · exact Merger.listsAlong_merge zipmerge_isZip (wf_tree fun _ => (PyValue.int x).property) (hd ks)
      (listsAlong_tree (fun _ _ => rfl) fun _ _ _ => hatom) hd'
  · obtain ⟨z, hz⟩ := leaf_present (o := some d) hc (fun b hb => by cases hb; exact hd _) hd' his
    rw [hz, mergeInto_atom hatom (leaf_of_merge (o := some d) hd' his hz)]
    rfl

/-- The model whose rows all return the integer `x`. -/
def constantRows (x : Int) (columns : List Column) : List (Column × Gen) :=
  columns.map fun col => (col, .ret (.int x))

/-- Such a run returns. -/
theorem rowLoop_one (hs : OneElement s) (hd : OneEach d) (columns : List Column) :
    ∃ d' t, rowLoop M d (rowsOf Column.plain (constantRows 0 columns)) s = .ok d' t ∧
      OneElement t ∧ OneEach d' := by
  induction columns generalizing d s with
  | nil => exact ⟨d, s, rfl, hs, hd⟩
  | cons col columns ih =>
      obtain ⟨t, ht, hrow⟩ := mergeRow_one (M := M) (walkable_plain (.ret (.int 0))) hs
      obtain ⟨e, he, hone, _⟩ := merge_one (M := M) (walkable_plain (.ret (.int 0))).ne_nil hd 0
      obtain ⟨d', u, hrest, hu, hd'⟩ := ih ht hone
      exact ⟨d', u, rowLoop_cons_eq_ok.mpr ⟨e, t, hrow.mpr ⟨he, rfl⟩, hrest⟩, hu, hd'⟩

theorem get?_of_same {d d' : Value} {p : List (Step PyStr)} {a : Atom} (h : Same d d')
    (hd : d.get? p = some (.atom a)) : d'.get? p = some (.atom a) := by
  have hp := h p
  rw [probe, probe, hd] at hp
  cases hv : d'.get? p with
  | none =>
      rw [hv] at hp
      cases hp
  | some v =>
      rw [hv] at hp
      cases v with
      | atom b =>
          cases hp
          rfl
      | list xs => cases hp
      | dict kvs => cases hp

-- ============================================================================
-- When white space does not matter
-- ============================================================================

/-- White space does not matter for these columns: whatever generators are put behind them,
    after each row the document is the same as without white space. -/
def SameDocuments (M : DocMerger) (columns : List Column) : Prop :=
  ∀ model : List (Column × Gen), model.map Prod.fst <+: columns → ∀ w doc t,
    rowLoop M (.dict []) (rowsOf Column.plain model) (DocState.start w) = .ok doc t →
    ∃ doc' t', rowLoop M (.dict []) (rowsOf Column.written model) (DocState.start w) =
        .ok doc' t' ∧ Same doc doc'

theorem rowsOf_append (text : Column → PyStr) (model : List (Column × Gen)) (r : Column × Gen) :
    rowsOf text (model ++ [r]) = rowsOf text model ++ [⟨text r.1, r.2⟩] := by
  rw [rowsOf, List.map_append]
  rfl

/-- Behind harmless columns a harmful one shows: some integer returned by its row is in the
    document without white space only. -/
theorem harmless_of_same (hcolumns : ∀ col ∈ columns, col.Harmless)
    (hsame : SameDocuments M (columns ++ [col])) : col.Harmless := by
  -- with one element everywhere, a row has one instance and so one leaf to look for
  by_contra hharm
  let w : World := { World.fresh fun _ => 0 with maxArraySize := 1 }
  have hstart : OneElement (DocState.start w) := ⟨rfl, fun _ _ h => nomatch h⟩
  obtain ⟨d, s, hbefore, hs, hd⟩ := rowLoop_one (M := M) hstart (fun _ => listsAlong_empty) columns
  obtain ⟨is, his⟩ : ∃ is, is ∈ indices one (comps (Row.path ⟨col.plain, .ret (.int 0)⟩)) :=
    exists_mem_indices fun _ _ => Nat.one_pos
  -- an integer that is not yet where the row belongs
  obtain ⟨x, hx⟩ : ∃ x : Int,
      d.get? (place (comps (Row.path ⟨col.plain, .ret (.int 0)⟩)) is) ≠ some (.atom (.int x)) := by
    by_cases hzero : d.get? (place (comps (Row.path ⟨col.plain, .ret (.int 0)⟩)) is) =
        some (.atom (.int 0))
    · exact ⟨1, by rw [hzero]; simp⟩
    · exact ⟨0, hzero⟩
  let model := constantRows 0 columns ++ [(col, .ret (.int x))]
  have hmodel : model.map Prod.fst = columns ++ [col] := by
    rw [List.map_append, constantRows, List.map_map]
    exact congrArg (· ++ [col]) (List.map_id _)
  have hharmless : ∀ r ∈ constantRows 0 columns, r.1.Harmless := by
    intro r hr
    obtain ⟨c, hc, rfl⟩ := List.mem_map.mp hr
    exact hcolumns c hc
  -- the run without white space
  obtain ⟨t, _, hrow⟩ := mergeRow_one (M := M) (walkable_plain (.ret (.int x))) hs
  obtain ⟨doc, hdoc, _, hleaf⟩ := merge_one (M := M) (walkable_plain (.ret (.int x))).ne_nil hd x
  have hplain : rowLoop M (.dict []) (rowsOf Column.plain model) (DocState.start w) =
      .ok doc t := by
    rw [rowsOf_append]
    exact rowLoop_append_eq_ok.mpr ⟨d, s, hbefore,
      rowLoop_cons_eq_ok.mpr ⟨doc, t, hrow.mpr ⟨hdoc, rfl⟩, rfl⟩⟩
  -- the run with white space
  obtain ⟨doc', t', hwritten, hdocs⟩ := hsame model (hmodel ▸ List.prefix_rfl) w doc t hplain
  rw [rowsOf_append] at hwritten
  obtain ⟨d₁, s₁, hbefore', hlast⟩ := rowLoop_append_eq_ok.mp hwritten
  rw [rowLoop_written hharmless, hbefore] at hbefore'
  cases hbefore'
  obtain ⟨doc₁, t₁, hlast, hnil⟩ := rowLoop_cons_eq_ok.mp hlast
  cases hnil
  obtain ⟨u, _, hrow'⟩ := mergeRow_one (M := M) (walkable_written (.ret (.int x))) hs
  -- misread, the row leaves its own leaf as it was, or removes it
  have hmis := get?_merge_misread (o := some d) (misread_of_not_harmless hharm _)
    (hrow'.mp hlast).1 his
  have hfound := get?_of_same hdocs (hleaf is his)
  rcases hmis with hold | hnone
  · rw [hold] at hfound
    exact hx hfound
  · rw [hnone] at hfound
    cases hfound

theorem SameDocuments.of_prefix {columns' : List Column} (h : SameDocuments M columns)
    (hpre : columns' <+: columns) : SameDocuments M columns' :=
  fun model hmodel => h model (hmodel.trans hpre)

/-- **When white space does not matter.**  It is exactly when it hides no marker: no component
    before the last one of its path has white space after its marker, and the last one has some
    only if its marker stands right after its first character. -/
theorem white_space_never_matters_iff (M : DocMerger) (columns : List Column) :
    SameDocuments M columns ↔ ∀ col ∈ columns, col.Harmless := by
  constructor
  · intro h
    induction columns using List.reverseRecOn with
    | nil => exact fun col hcol => nomatch hcol
    | append_singleton columns col ih =>
        have hcolumns := ih (h.of_prefix (List.prefix_append _ _))
        intro c hc
        rcases List.mem_append.mp hc with hc | hc
        · exact hcolumns c hc
        · rw [List.mem_singleton.mp hc]
          exact harmless_of_same hcolumns h
  · intro h model hmodel w doc t hrun
    have hharmless : ∀ r ∈ model, r.1.Harmless := fun r hr =>
      h r.1 (hmodel.subset (List.mem_map_of_mem hr))
    exact ⟨doc, t, by rw [rowLoop_written hharmless, hrun], .refl doc⟩

/-- The names `addresses` and `Line1`. -/
def addressesName : PropName :=
  ⟨"addresses".toList, by decide, List.any_eq_false.mp (by decide),
    List.any_eq_false.mp (by decide), by decide⟩
def lineName : PropName :=
  ⟨"Line1".toList, by decide, List.any_eq_false.mp (by decide),
    List.any_eq_false.mp (by decide), by decide⟩

/-- The path `addresses().Line1`, written with a space after the marker. -/
def addressColumn : Column where
  above := [⟨addressesName, true, "addresses() ".toList,
    @Spaced.array addressesName "addresses".toList " ".toList (by decide)
      (List.all_eq_true.mp (by decide))⟩]
  last := ⟨lineName, false, "Line1".toList, .object (by decide)⟩

/-- The values of the row, read as it is meant and as it is written. -/
def addressValues : Filled :=
  ⟨[⟨"addresses".toList, true⟩, ⟨"Line1".toList, false⟩], fun _ => .int 0⟩
def addressValues' : Filled :=
  ⟨[⟨"addresses()".toList, false⟩, ⟨"Line1".toList, false⟩], fun _ => .int 0⟩

/-- What the row generates for one address. -/
def lineDoc : Value := .dict [("Line1".toList, .atom (.int 0))]

/-- A space after the marker: instead of an array of addresses the document gets an object under
    a key that ends with the marker. -/
theorem white_space_matters :
    ∃ doc t doc' t',
      rowLoop merger (.dict []) (rowsOf Column.plain [(addressColumn, .ret (.int 0))])
        (DocState.start twoWorld) = .ok doc t ∧
      rowLoop merger (.dict []) (rowsOf Column.written [(addressColumn, .ret (.int 0))])
        (DocState.start twoWorld) = .ok doc' t' ∧
      ¬ Same doc doc' := by
  refine ⟨.dict [("addresses".toList, .list [lineDoc, lineDoc])],
    ⟨Function.update Counts.empty "addresses".toList (some 2), twoWorld⟩,
    .dict [("addresses()".toList, lineDoc)], DocState.start twoWorld, ?_, ?_, fun h => ?_⟩
  · exact rowLoop_of_values (r := addressValues) (by decide) (by decide) rfl rfl
  · exact rowLoop_of_values (r := addressValues') (by decide) (by decide) rfl rfl
  · exact Option.some_ne_none _ (h [.key "addresses".toList])

end MLocust.Faker
