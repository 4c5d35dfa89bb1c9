/-
  MLocust.Faker.IdRows

  Where the strings that `ID` issues end up in the documents of a batch.

  A row with the generator `ID(key)` evaluates it once for each instance of its
  path, in row-major order, so the row's values are consecutive strings of the key.
  They are all found in the finished document, in the same order, if nothing merged
  before the row cuts its arrays and nothing merged after it touches its path.  The
  row loop, documents and batches follow by induction over the run (`IdBatch`).
-/
import MLocust.Faker.Ids
import MLocust.Faker.RowLists
import Mathlib.Algebra.BigOperators.Group.List.Basic

namespace MLocust.Faker

open Lib Lib.Program DataTree PyStr

variable {M : DocMerger} {key : PyStr}

open Classical in
/-- The rows with the generator `ID(key)`, in template order. -/
noncomputable def idRows (key : PyStr) (rows : List Row) : List Row :=
  rows.filter fun row => row.generator = .id key

/-- The number of instances of a path for given array lengths: the product of the lengths of
    its arrays. -/
def instances (counts : Counts) (cs : List Comp) : Nat :=
  ((arrayNames cs).map counts.len).prod

/-- The number of evaluations of `ID(key)` that the rows make for one document with the given
    lengths. -/
noncomputable def idTotal (key : PyStr) (rows : List Row) (counts : Counts) : Nat :=
  ((idRows key rows).map fun row => instances counts (comps row.path)).sum

/-- What a document holds at its `ID(key)` rows: row by row in template order, and for each row
    in row-major order of the array indices on its path. -/
noncomputable def foundIds (key : PyStr) (rows : List Row) (doc : Value) : List Value :=
  (idRows key rows).flatMap fun row => instancesAt (names (comps row.path)) doc

/-- The values that are the key followed by `c + 1`, ..., `c + n`. -/
def numberedValues (key : PyStr) (c n : Nat) : List Value :=
  (numbered key c n).map fun s => .atom (.str s)

/-- Evaluating the generator never calls `ID(key)`. -/
def Gen.Spares (key : PyStr) (g : Gen) : Prop :=
  Guarantees (fun w w' => w'.idMap key = w.idMap key) g.eval

/-- A model that issues `key` in its `ID(key)` rows only, and in which no later row conflicts
    with one of them. -/
structure IdModel (key : PyStr) (rows : List Row) : Prop where
  others : ∀ row ∈ rows, row.generator ≠ .id key → row.generator.Spares key
  later : rows.Pairwise fun row row' =>
    row.generator = .id key → ¬ Conflict (comps row.path) (comps row'.path)

/-- No row above an `ID(key)` row, whose path is a proper prefix of that row's, returns a list
    or a dictionary. -/
def FlatAbove (key : PyStr) (rows : List Row) : Prop :=
  rows.Pairwise fun row row' => row'.generator = .id key →
    names (comps row.path) <+: names (comps row'.path) →
    row.path.length < row'.path.length → row.generator.ReturnsAtoms

theorem idRows_cons_of_pos {row : Row} (h : row.generator = .id key) (rows : List Row) :
    idRows key (row :: rows) = row :: idRows key rows := by
  rw [idRows, List.filter_cons_of_pos (by simpa using h)]
  rfl

theorem idRows_cons_of_neg {row : Row} (h : row.generator ≠ .id key) (rows : List Row) :
    idRows key (row :: rows) = idRows key rows := by
  rw [idRows, List.filter_cons_of_neg (by simpa using h)]
  rfl

theorem length_indices (counts : Counts) (cs : List Comp) :
    (indices counts.len cs).length = instances counts cs := by
  induction cs with
  | nil => rfl
  | cons c cs ih =>
      by_cases hc : c.array
      · rw [indices_array hc, instances, arrayNames_array hc, List.map_cons, List.prod_cons,
          List.length_flatMap]
        simp only [List.length_map, ih]
        rw [List.map_const', List.sum_replicate, List.length_range]
        rfl
      · rw [indices_object hc, ih, instances, instances, arrayNames_object hc]

theorem numberedValues_add (key : PyStr) (c m n : Nat) :
    numberedValues key c (m + n) = numberedValues key c m ++ numberedValues key (c + m) n := by
  rw [numberedValues, numbered_add, List.map_append]
  rfl

-- ============================================================================
-- The values of a row
-- ============================================================================

/-- Evaluating `ID(key)` again and again returns the next strings of the key. -/
theorem mapM_eval_id {ι : Type} (l : List ι) {w w' : World} {vs : List PyValue}
    (h : (l.mapM fun _ => (Gen.id key).eval) w = .ok vs w') :
    vs.map Subtype.val = numberedValues key (w.idMap key) vs.length ∧
      w'.idMap key = w.idMap key + vs.length := by
  induction l generalizing w vs with
  | nil =>
      cases h
      exact ⟨rfl, rfl⟩
  | cons i l ih =>
      rw [List.mapM_cons, bind_of_ok (Gen.eval_id key w)] at h
      obtain ⟨rest, u, hrest, hcons⟩ := bind_eq_ok.mp h
      cases hcons
      obtain ⟨hvals, hcount⟩ := ih hrest
      have hnext : (w.afterID key).idMap key = w.idMap key + 1 := Function.update_self ..
      rw [hnext] at hvals hcount
      constructor
      · rw [List.map_cons, hvals, List.length_cons, Nat.add_comm rest.length 1,
          numberedValues_add]
        rfl
      · rw [hcount, List.length_cons]
        omega

/-- The values of an `ID(key)` row are the next strings of the key. -/
theorem rowValues_id {cs : List Comp} {s t : DocState} {vs : List PyValue}
    (h : rowValues cs (.id key) s = .ok vs t) :
    vs.map Subtype.val = numberedValues key (s.world.idMap key) vs.length ∧
      t.world.idMap key = s.world.idMap key + vs.length := by
  obtain ⟨u, hu, _, hleaves⟩ := rowValues_eq_ok.mp h
  have hid := congrFun (drawLengths_eq_ok hu).idMap key
  rw [← hid]
  exact mapM_eval_id _ hleaves

/-- A row that spares the key leaves its counter alone. -/
theorem rowValues_spares {cs : List Comp} {g : Gen} (hg : g.Spares key) {s t : DocState}
    {vs : List PyValue} (h : rowValues cs g s = .ok vs t) :
    t.world.idMap key = s.world.idMap key := by
  apply rowValues_guarantees (P := fun w w' => w'.idMap key = w.idMap key) _ _ _ hg h
  · exact fun _ => rfl
  · exact fun h h' => h'.trans h
  · exact fun _ _ => rfl

-- ============================================================================
-- Reading a path back
-- ============================================================================

theorem flatMap_eq_flatMap_range {α β : Type} {xs : List α} {n : Nat} {f : α → List β}
    {g : Nat → List β} (hlen : xs.length = n) (h : ∀ i x, xs[i]? = some x → f x = g i) :
    xs.flatMap f = (List.range n).flatMap g := by
  have hmap : xs.map f = (List.range n).map g := by
    apply List.ext_getElem?
    intro i
    rw [List.getElem?_map, List.getElem?_map]
    cases hx : xs[i]? with
    | some x =>
        have hi : i < n := hlen ▸ (List.getElem?_eq_some_iff.mp hx).1
        rw [List.getElem?_range hi, Option.map_some, Option.map_some, h i x hx]
    | none =>
        have hi : n ≤ i := hlen ▸ List.getElem?_eq_none_iff.mp hx
        rw [List.getElem?_eq_none (by rwa [List.length_range]), Option.map_none, Option.map_none]
  rw [List.flatMap_def, List.flatMap_def, hmap]

/-- A document whose lists along a path have the drawn lengths, and that holds every leaf of
    the path, holds nothing else at its instances. -/
theorem instancesAt_names {len : PyStr → Nat} {cs : List Comp} {c : Comp} {doc : Value}
    {f : List Nat → Value} (hc : ¬ c.array) (hlen : ∀ k ∈ arrayNames (cs ++ [c]), 0 < len k)
    (hlists : ListsAlong (fun k n => n = len k) (names cs) doc)
    (hleaf : ∀ is ∈ indices len (cs ++ [c]),
      doc.get? (place (cs ++ [c]) is) = some (f is)) :
    instancesAt (names (cs ++ [c])) doc = (indices len (cs ++ [c])).map f := by
  induction cs generalizing doc f with
  | nil =>
      rw [List.nil_append, indices_object hc] at hleaf ⊢
      have hroot := hleaf [] (List.mem_singleton_self _)
      rw [place_object hc] at hroot
      show (doc.get? [.key c.name]).toList = _
      rw [show doc.get? [.key c.name] = some (f []) from hroot]
      rfl
  | cons a cs ih =>
      rw [List.cons_append] at hlen hleaf ⊢
      have hne : names (cs ++ [c]) ≠ [] := by simp [names]
      show instancesAt (a.name :: names (cs ++ [c])) doc = _
      rw [instancesAt_cons hne]
      by_cases ha : a.array
      -- array: the instances of the rest, one element after the other
      · rw [arrayNames_array ha] at hlen
        have hpos := hlen a.name List.mem_cons_self
        have hrest : ∀ k ∈ arrayNames (cs ++ [c]), 0 < len k :=
          fun k hk => hlen k (List.mem_cons_of_mem _ hk)
        have hleaf' : ∀ i js, i < len a.name → js ∈ indices len (cs ++ [c]) →
            doc.get? (.key a.name :: .idx i :: place (cs ++ [c]) js) = some (f (i :: js)) := by
          intro i js hi hjs
          have hij := hleaf (i :: js) ((mem_indices_array ha).mpr ⟨i, js, hi, hjs, rfl⟩)
          rwa [place_array ha] at hij
        -- some leaf shows that there is a list under the array's name
        obtain ⟨js, hjs⟩ := exists_mem_indices hrest
        have hfirst := hleaf' 0 js hpos hjs
        rw [get?_cons] at hfirst
        obtain ⟨w, hw, hfirst⟩ := Option.bind_eq_some_iff.mp hfirst
        obtain ⟨xs, rfl⟩ := exists_list_of_get?_idx hfirst
        obtain ⟨hlen', hels⟩ := (hlists _ hw).2 xs rfl
        -- as many elements as indices, and the rest holds below each of them
        rw [hw, indices_array ha, List.map_flatMap]
        rw [Option.toList_some, List.flatMap_singleton]
        refine flatMap_eq_flatMap_range hlen' fun i x hi => ?_
        have hlt : i < len a.name := hlen' ▸ (List.getElem?_eq_some_iff.mp hi).1
        rw [List.map_map]
        refine ih hrest (hels x (List.mem_of_getElem? hi)) fun js hjs => ?_
        have hij := hleaf' i js hlt hjs
        rw [get?_cons, hw, Option.bind_some, get?_cons, get?_idx_singleton,
          show xs[i]? = some x from hi] at hij
        exact hij
      -- object: the instances of the rest, under the one key
      · rw [arrayNames_object ha] at hlen
        rw [indices_object ha] at hleaf ⊢
        obtain ⟨js, hjs⟩ := exists_mem_indices hlen
        have hfirst := hleaf js hjs
        rw [place_object ha, get?_cons] at hfirst
        obtain ⟨w, hw, hfirst⟩ := Option.bind_eq_some_iff.mp hfirst
        -- the path goes on with a key, which a list does not have
        obtain ⟨b, ds, hbs⟩ := List.exists_cons_of_ne_nil
          (List.append_ne_nil_of_right_ne_nil cs (List.cons_ne_nil c []))
        rw [hbs] at hfirst
        have hdict : w.elements = [w] := elements_of_get?_key hfirst
        rw [hw]
        rw [Option.toList_some, List.flatMap_singleton, hdict, List.flatMap_singleton]
        refine ih hlen ((hlists w hw).1) fun is his => ?_
        have hleaf' := hleaf is his
        rw [place_object ha, get?_cons, hw] at hleaf'
        exact hleaf'

end MLocust.Faker
