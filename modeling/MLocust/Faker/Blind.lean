/-
  MLocust.Faker.Blind

  What generation depends on: the random source and `maxArraySize`.

  A function `f` on atoms disregards the numbers that `ID` puts into strings.  A
  generator is blind when, up to `f`, it ends alike in any two processes with the
  same random source and the same `maxArraySize`.  Everything that `bulkFetch` does
  with blind generators is then blind (`fetchDoc_related`): the array lengths, the
  merges and the errors never look at an atom.

  The same programs read a finite part of the random source (`fetchDoc_reads`).
-/
import MLocust.Faker.BulkFetch
import MLocust.Lib.Relabel
import MLocust.Lib.Tape

namespace MLocust.Faker

open Lib Lib.Program DataTree PyStr

variable {β : Type} {f : Atom → β}

/-- The processes have the same random source and the same `maxArraySize`. -/
abbrev SameSource : World → World → Prop := Agree World.draws World.maxArraySize

/-- The documents are built with the same lengths so far, in processes that have the same
    random source and the same `maxArraySize`. -/
structure SameDoc (s t : DocState) : Prop where
  counts : s.counts = t.counts
  world : SameSource s.world t.world

/-- Up to `f`, what the generator does depends on the random source and `maxArraySize` only. -/
def Gen.Blind (f : Atom → β) (g : Gen) : Prop :=
  Related SameSource (fun v w => MapEq f v.val w.val) g.eval g.eval

/-- `ID(key)` gives the same strings, up to `f`, if `f` disregards the number behind the key. -/
theorem id_related {Φ : World → World → Prop} {key : PyStr}
    (hΦ : ∀ w w', Φ w w' → Φ (w.afterID key) (w'.afterID key))
    (h : ∀ m n, f (.str (key ++ str m)) = f (.str (key ++ str n))) :
    Related Φ (fun v w : PyValue => MapEq f v.val w.val) (Gen.id key).eval (Gen.id key).eval := by
  intro w w' hw
  rw [Gen.eval_id, Gen.eval_id]
  refine .ok ?_ (hΦ w w' hw)
  show (DataTree.atom _ : Value).map f = (DataTree.atom _ : Value).map f
  rw [map_atom, map_atom, h]

/-- A constant is blind. -/
theorem blind_ret (v : PyValue) : (Gen.ret v).Blind f := Related.pure (.refl v.val)

/-- `ID(key)` is blind if `f` disregards the number behind the key. -/
theorem blind_id {key : PyStr} (h : ∀ m n, f (.str (key ++ str m)) = f (.str (key ++ str n))) :
    (Gen.id key).Blind f := id_related (fun _ _ hw => hw) h

/-- `setArraySize(size)` is blind. -/
theorem blind_setArraySize (size : Int) : (Gen.setArraySize size).Blind f := by
  intro w w' hw
  rw [Gen.eval_setArraySize, Gen.eval_setArraySize]
  exact .ok (.refl _) ⟨hw.1, rfl⟩

-- ============================================================================
-- Two runs side by side
-- ============================================================================

theorem draw_related : Related SameSource Eq draw draw := by
  intro w w' hw
  show Alike _ _ (.ok (w.draws 0) _) (.ok (w'.draws 0) _)
  rw [hw.1]
  exact .ok rfl ⟨rfl, hw.2⟩

theorem randintFromOne_related (hi : Int) :
    Related SameSource Eq (randintFromOne hi) (randintFromOne hi) := by
  rw [randintFromOne]
  split
  · exact Related.throw _ _
  · refine draw_related.bind fun d d' hd => Related.pure ?_
    rw [hd]

theorem lookupCount_related (name : PyStr) :
    Related SameDoc Eq (lookupCount name) (lookupCount name) := by
  intro s t hst
  cases hs : s.counts name with
  | some n =>
      rw [lookupCount_of_some hs, lookupCount_of_some (hst.counts ▸ hs)]
      exact .ok rfl hst
  | none =>
      have hrand := randintFromOne_related s.world.maxArraySize _ _ hst.world
      rw [lookupCount_of_none hs, lookupCount_of_none (hst.counts ▸ hs), ← hst.world.2]
      generalize randintFromOne s.world.maxArraySize s.world = r at hrand ⊢
      generalize randintFromOne s.world.maxArraySize t.world = r' at hrand ⊢
      cases hrand with
      | ok hab hw =>
          subst hab
          exact .ok rfl ⟨by rw [hst.counts], hw⟩
      | error hw => exact .error ⟨hst.counts, hw⟩

theorem onWorld_related {α γ : Type} {R : α → γ → Prop} {x : Py World α} {y : Py World γ}
    (h : Related SameSource R x y) : Related SameDoc R (onWorld x) (onWorld y) :=
  h.zoom (fun _ _ hst => hst.world) fun _ _ _ _ hst hw => ⟨hst.counts, hw⟩

theorem getItem_cons (key j : PyStr) (x : Value) (d : List (PyStr × Value)) :
    getItem (.dict ((j, x) :: d)) key = if key = j then .ok x else getItem (.dict d) key := by
  by_cases h : key = j
  · subst h
    simp [getItem]
  · have hb : (key == j) = false := by simpa using h
    simp [getItem, List.lookup_cons, h, hb]

/-- Looking up a key in two trees that `f` does not tell apart. -/
theorem getItem_mapEq {u u' v : Value} {key : PyStr} (h : MapEq f u u')
    (hv : getItem u key = .ok v) : ∃ v', getItem u' key = .ok v' ∧ MapEq f v v' := by
  cases u with
  | atom a => cases hv
  | list xs => cases hv
  | dict d =>
      obtain ⟨e, rfl⟩ := h.exists_dict
      have hitems := mapEq_dict_iff.mp h
      clear h
      induction hitems with
      | nil => cases hv
      | @cons kv kv' d e hkv _ ih =>
          obtain ⟨j, x⟩ := kv
          obtain ⟨j', x'⟩ := kv'
          obtain ⟨rfl, hx⟩ := hkv
          rw [getItem_cons] at hv ⊢
          by_cases hkey : key = j
          · rw [if_pos hkey] at hv ⊢
            cases hv
            exact ⟨x', rfl, hx⟩
          · rw [if_neg hkey] at hv ⊢
            exact ih hv

theorem fromExcept_getItem_related {u u' : Value} (key : PyStr) (h : MapEq f u u') :
    Related SameDoc (MapEq f) (fromExcept (getItem u key) : Py DocState Value)
      (fromExcept (getItem u' key)) := by
  refine Related.fromExcept (fun v hv => getItem_mapEq h hv) fun v' hv' => ?_
  obtain ⟨v, hv, _⟩ := getItem_mapEq h.symm hv'
  exact ⟨v, hv⟩

theorem mapEq_singleton (key : PyStr) {v v' : Value} (h : MapEq f v v') :
    MapEq f (.dict [(key, v)]) (.dict [(key, v')]) :=
  mapEq_dict_iff.mpr (.cons ⟨rfl, h⟩ .nil)

/-- `procpath` with a blind generator. -/
theorem procpath_related {g : Gen} (hg : g.Blind f) (path : List PyStr) :
    Related SameDoc (MapEq f) (procpath path g) (procpath path g) := by
  have hvalue : Related SameDoc (fun v w : PyValue => MapEq f v.val w.val) (onWorld g.eval)
      (onWorld g.eval) := onWorld_related hg
  induction path using procpath.induct with
  | case1 =>
      rw [procpath_nil]
      exact Related.throw _ _
  | case2 component rest ihArray ihObject =>
      rw [procpath]
      have hstrip : Related SameDoc Eq (fromExcept (stripProp component) : Py DocState PyStr)
          (fromExcept (stripProp component)) :=
        Related.fromExcept (fun a ha => ⟨a, ha, rfl⟩) fun b hb => ⟨b, hb⟩
      refine hstrip.bind fun stripped _ hs => ?_
      subst hs
      split
      -- last component: the value of the generator
      · exact hvalue.bind fun v w hvw => Related.pure (mapEq_singleton stripped hvw)
      · split
        · rename_i hmark
          -- array: both runs draw the same length
          refine (lookupCount_related stripped).bind fun n _ hn => ?_
          subst hn
          have helement := (ihArray hmark).bind
            fun u u' hu => fromExcept_getItem_related stripped hu
          refine Related.bind (R := List.Forall₂ (MapEq f))
            (Related.mapM (R := Eq) (fun _ _ _ => helement) (List.forall₂_same.mpr fun _ _ => rfl))
            fun xs xs' hxs => Related.pure ?_
          exact mapEq_singleton stripped (mapEq_list_iff.mpr hxs)
        -- object
        · exact ihObject.bind fun v w hvw => Related.pure (mapEq_singleton stripped hvw)

variable (M : DocMerger)

theorem merge_related {d d' v v' : Value} (hd : MapEq f d d') (hv : MapEq f v v') :
    Related SameDoc (MapEq f) (fromExcept (M.merge d v) : Py DocState Value)
      (fromExcept (M.merge d' v')) := by
  refine Related.fromExcept
    (fun r hr => Merger.merge_mapEq zipmerge_isZip hd hv hr) fun r' hr' => ?_
  obtain ⟨r, hr, _⟩ := Merger.merge_mapEq zipmerge_isZip hd.symm hv.symm hr'
  exact ⟨r, hr⟩

theorem mergeRow_related {row : Row} (hg : row.generator.Blind f) {d d' : Value}
    (hd : MapEq f d d') : Related SameDoc (MapEq f) (mergeRow M d row) (mergeRow M d' row) :=
  (procpath_related hg row.path).bind fun _ _ hv => merge_related M hd hv

/-- Every row of the file has a blind generator. -/
def BlindRows (f : Atom → β) (env : Env) (template : List (List PyStr)) : Prop :=
  ∀ cells ∈ template, ∀ row, readRow env cells = .ok row → row.generator.Blind f

theorem templateLoop_related {env : Env} {template : List (List PyStr)}
    (hblind : BlindRows f env template) {d d' : Value} (hd : MapEq f d d') :
    Related SameDoc (MapEq f) (templateLoop M env d template) (templateLoop M env d' template) := by
  induction template generalizing d d' with
  | nil => exact Related.pure hd
  | cons cells template ih =>
      obtain ⟨hcells, hrest⟩ := List.forall_mem_cons.mp hblind
      have hread : Related SameDoc (fun row row' => row = row' ∧ row.generator.Blind f)
          (fromExcept (readRow env cells) : Py DocState Row) (fromExcept (readRow env cells)) :=
        Related.fromExcept (fun row hrow => ⟨row, hrow, rfl, hcells row hrow⟩)
          fun row hrow => ⟨row, hrow⟩
      have hcell := hread.bind (S := MapEq f) (f := mergeRow M d) (g := mergeRow M d')
        fun row row' hrow => hrow.1 ▸ mergeRow_related M hrow.2 hd
      exact hcell.bind fun e e' he => ih hrest he

/-- A document of blind generators, up to `f`, depends on the random source and
    `maxArraySize` only. -/
theorem fetchDoc_related {env : Env} {template : List (List PyStr)}
    (hblind : BlindRows f env template) :
    Related SameSource (MapEq f) (fetchDoc M env template) (fetchDoc M env template) :=
  (templateLoop_related M hblind (.refl _)).zoom (fun _ _ hw => ⟨rfl, hw⟩)
    fun _ _ _ _ _ hst => hst.world

-- ============================================================================
-- The part of the random source that a run reads
-- ============================================================================

/-- The process with another random source. -/
def World.withDraws (draws : Stream' Nat) (w : World) : World := { w with draws := draws }

/-- The document state with another random source. -/
def DocState.withDraws (draws : Stream' Nat) (s : DocState) : DocState :=
  ⟨s.counts, s.world.withDraws draws⟩

theorem draw_reads : ReadsPart World.withDraws draw := by
  intro w n w' h
  cases h
  exact ⟨[w.draws 0], fun rest => rfl⟩

theorem randintFromOne_reads (hi : Int) : ReadsPart World.withDraws (randintFromOne hi) := by
  rw [randintFromOne]
  split
  · exact ReadsPart.throw _
  · exact ReadsPart.bind draw_reads fun d => ReadsPart.pure _

theorem Gen.eval_reads (g : Gen) : ReadsPart World.withDraws g.eval := by
  induction g with
  | ret v => exact ReadsPart.pure v
  | raise msg => exact ReadsPart.throw _
  | random k ih => exact ReadsPart.bind draw_reads ih
  | callID key k ih =>
      refine ReadsPart.bind (fun w s w' h => ?_) ih
      cases h
      exact ⟨[], fun rest => rfl⟩
  | callSetArraySize size k ih =>
      refine ReadsPart.bind (fun w s w' h => ?_) ih
      cases h
      exact ⟨[], fun rest => rfl⟩
  | readMaxArraySize k ih =>
      -- what is read is not the random source, so it is the same in front of any rest
      intro w v w' h
      obtain ⟨part, hpart⟩ := ih w.maxArraySize w v w' h
      exact ⟨part, hpart⟩

theorem onWorld_reads {α : Type} {x : Py World α} (h : ReadsPart World.withDraws x) :
    ReadsPart DocState.withDraws (onWorld x) :=
  h.zoom (fun _ _ => rfl) fun _ _ _ _ => rfl

theorem lookupCount_reads (name : PyStr) : ReadsPart DocState.withDraws (lookupCount name) := by
  intro s n t h
  cases hs : s.counts name with
  -- a length that is there reads nothing
  | some m =>
      rw [lookupCount_of_some hs] at h
      cases h
      exact ⟨[], fun rest => lookupCount_of_some hs⟩
  | none =>
      rw [lookupCount_of_none hs] at h
      cases hr : randintFromOne s.world.maxArraySize s.world with
      | error e w =>
          rw [hr] at h
          cases h
      | ok m w =>
          rw [hr] at h
          cases h
          obtain ⟨part, hpart⟩ := randintFromOne_reads _ _ _ _ hr
          refine ⟨part, fun rest => ?_⟩
          have hrest := lookupCount_of_none (s := s.withDraws (part ++ₛ rest)) hs
          rw [show (s.withDraws (part ++ₛ rest)).world = s.world.withDraws (part ++ₛ rest) from rfl,
            show (s.world.withDraws (part ++ₛ rest)).maxArraySize = s.world.maxArraySize from rfl,
            hpart rest] at hrest
          exact hrest

theorem procpath_reads (path : List PyStr) (g : Gen) :
    ReadsPart DocState.withDraws (procpath path g) := by
  induction path using procpath.induct with
  | case1 =>
      rw [procpath_nil]
      exact ReadsPart.throw _
  | case2 component rest ihArray ihObject =>
      rw [procpath]
      refine ReadsPart.bind (ReadsPart.fromExcept _) fun stripped => ?_
      split
      · exact ReadsPart.bind (onWorld_reads g.eval_reads) fun v => ReadsPart.pure _
      · split
        · rename_i hmark
          refine ReadsPart.bind (lookupCount_reads stripped) fun n => ?_
          refine ReadsPart.bind (ReadsPart.mapM (fun _ => ?_) _) fun xs => ReadsPart.pure _
          exact ReadsPart.bind (ihArray hmark) fun _ => ReadsPart.fromExcept _
        · exact ReadsPart.bind ihObject fun _ => ReadsPart.pure _

theorem fetchDoc_reads (env : Env) (template : List (List PyStr)) :
    ReadsPart World.withDraws (fetchDoc M env template) := by
  have hloop : ReadsPart DocState.withDraws (templateLoop M env (.dict []) template) := by
    refine ReadsPart.foldlM (fun d cells => ?_) _ _
    refine ReadsPart.bind (ReadsPart.fromExcept _) fun row => ?_
    exact ReadsPart.bind (procpath_reads _ _) fun _ => ReadsPart.fromExcept _
  exact hloop.zoom (fun _ _ => rfl) fun _ _ _ _ => rfl

end MLocust.Faker
