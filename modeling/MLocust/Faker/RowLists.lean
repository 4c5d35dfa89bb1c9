/-
  MLocust.Faker.RowLists

  The lists that the row loop leaves in a document, along one sequence of names.

  Every list that `procpath` builds has the length drawn for its name.  A row keeps
  whatever the drawn lengths satisfy, unless its path ends on the way and its
  generator returns a list or a dictionary there (`listsAlong_mergeRow`); the row
  loop keeps it by induction over the rows (`listsAlong_rowLoop`).
-/
import MLocust.Faker.LeafMerge

namespace MLocust.Faker

open Lib Lib.Program DataTree PyStr

variable {M : DocMerger} {rows : List Row} {row : Row} {d d' doc : Value} {s t u : DocState}

/-- The generator never returns a list or a dictionary. -/
def Gen.ReturnsAtoms (g : Gen) : Prop := ∀ w v w', g.eval w = .ok v w' → v.val.IsAtom

/-- Each value of a row was returned by one evaluation of its generator. -/
theorem mem_mapM_eval {ι : Type} {g : Gen} (l : List ι) {w w' : World} {vs : List PyValue}
    (h : (l.mapM fun _ => g.eval) w = .ok vs w') {v : PyValue} (hv : v ∈ vs) :
    ∃ u u', g.eval u = .ok v u' := by
  induction l generalizing w vs with
  | nil =>
      cases h
      cases hv
  | cons i l ih =>
      rw [List.mapM_cons] at h
      obtain ⟨a, u, ha, h⟩ := bind_eq_ok.mp h
      obtain ⟨rest, u', hrest, hcons⟩ := bind_eq_ok.mp h
      cases hcons
      rcases List.mem_cons.mp hv with rfl | hv
      · exact ⟨w, u, ha⟩
      · exact ih hrest hv

theorem rowValues_atoms {cs : List Comp} {g : Gen} (hg : g.ReturnsAtoms) {vs : List PyValue}
    (h : rowValues cs g s = .ok vs t) : ∀ v ∈ vs, v.val.IsAtom := by
  intro v hv
  obtain ⟨u, _, _, hleaves⟩ := rowValues_eq_ok.mp h
  obtain ⟨w, w', hw⟩ := mem_mapM_eval _ hleaves hv
  exact hg w v w' hw

/-- What drawing lengths and each evaluation of the generator do to the process, the row does
    as well. -/
theorem rowValues_guarantees {P : World → World → Prop} (hrefl : ∀ w, P w w)
    (htrans : ∀ {u v w}, P u v → P v w → P u w)
    (hdraws : ∀ (w : World) draws, P w { w with draws := draws }) {cs : List Comp} {g : Gen}
    (hg : Guarantees P g.eval) {vs : List PyValue} (h : rowValues cs g s = .ok vs t) :
    P s.world t.world := by
  obtain ⟨u, hu, _, hleaves⟩ := rowValues_eq_ok.mp h
  have hdrawn := drawLengths_eq_ok hu
  have hworld : u.world =
      ⟨u.world.draws, s.world.idMap, s.world.maxArraySize, s.world.calls⟩ := by
    rw [← hdrawn.idMap, ← hdrawn.maxArraySize, ← hdrawn.calls]
  have hall : Guarantees P (leaves t.counts.len g cs) :=
    Guarantees.mapM hrefl htrans (fun _ => hg) _
  apply htrans _ (hall.of_ok hleaves)
  rw [hworld]
  exact hdraws s.world _

/-- What one round of the row loop went through, with the lengths of any later state of the
    document: its values were generated and their tree was merged. -/
theorem mergeRow_values (hrow : mergeRow M d row s = .ok d' u)
    (hmono : ∀ k n, u.counts k = some n → t.counts k = some n) :
    Walkable row.path ∧ ∃ f,
      rowValues (comps row.path) row.generator s =
        .ok ((indices t.counts.len (comps row.path)).map f) u ∧
      M.merge d (valueTree t.counts.len (comps row.path) f) = .ok d' := by
  obtain ⟨v, hv, hm⟩ := mergeRow_eq_ok.mp hrow
  have hwalk := walkable_of_procpath_eq_ok hv
  obtain ⟨f, rfl, hf⟩ := (procpath_eq_ok hwalk).mp hv
  have hlen := len_eq_of_mono hmono (rowValues_counts hf).2
  refine ⟨hwalk, f, ?_, ?_⟩
  · rw [hf, indices_congr_len hlen]
  · rw [← hm, valueTree, valueTree, tree_congr_len _ hlen]

/-- A row keeps what the lists along some names satisfy. -/
theorem listsAlong_mergeRow {R : PyStr → Nat → Prop} {ks : List PyStr}
    (hrow : mergeRow M d row s = .ok d' u)
    (hmono : ∀ k n, u.counts k = some n → t.counts k = some n)
    (hR : ∀ k ∈ arrayNames (comps row.path), R k (t.counts.len k))
    (hd : ListsAlong R ks d)
    (hflat : names (comps row.path) <+: ks → row.generator.ReturnsAtoms) :
    ListsAlong R ks d' := by
  obtain ⟨_, f, hf, hm⟩ := mergeRow_values hrow hmono
  refine Merger.listsAlong_merge zipmerge_isZip (wf_tree fun is => (f is).property) hd ?_ hm
  refine listsAlong_tree hR fun hpre is his => ?_
  exact rowValues_atoms (hflat hpre) hf _ (List.mem_map_of_mem his)

/-- The row loop keeps what the lists along some names satisfy. -/
theorem listsAlong_rowLoop {R : PyStr → Nat → Prop} {ks : List PyStr}
    (h : rowLoop M d rows s = .ok doc t)
    (hR : ∀ row ∈ rows, ∀ k ∈ arrayNames (comps row.path), R k (t.counts.len k))
    (hd : ListsAlong R ks d)
    (hflat : ∀ row ∈ rows, names (comps row.path) <+: ks → row.generator.ReturnsAtoms) :
    ListsAlong R ks doc := by
  induction rows generalizing d s with
  | nil =>
      cases h
      exact hd
  | cons row rows ih =>
      obtain ⟨d', u, hrow, hrest⟩ := rowLoop_cons_eq_ok.mp h
      obtain ⟨hR, hRs⟩ := List.forall_mem_cons.mp hR
      obtain ⟨hflat, hflats⟩ := List.forall_mem_cons.mp hflat
      exact ih hrest hRs (listsAlong_mergeRow hrow (rowLoop_mono hrest) hR hd hflat) hflats

end MLocust.Faker
