/-
  MLocust.Faker.KeyOrder

  The order of the fields in the documents.

  The reference tree of a model does not say in which order a document holds its
  fields, but the order is stored and shown.  An object holds its fields in the
  order in which the rows of the model first mention them (`fields_in_order`).
  This holds of every object that no row puts a value in place of, and so of the
  document itself in every model.
-/
import MLocust.Lib.KeyOrder
import MLocust.Faker.ModelCheck

namespace MLocust.Faker

open Lib Lib.Program DataTree PyStr

variable {len : PyStr → Nat} {M : DocMerger} {o : Option Value} {r : Value} {c : Comp}
  {above cs : List Comp} {f : List Nat → Value} {is : List Nat}

/-- The name that a path has right below the given components. -/
def nextName : List Comp → List Comp → Option PyStr
  | [], [] => none
  | [], c :: _ => some c.name
  | _ :: _, [] => none
  | a :: above, c :: cs => if a = c then nextName above cs else none

theorem nextName_eq_some {k : PyStr} :
    nextName above cs = some k ↔ ∃ c below, cs = above ++ c :: below ∧ c.name = k := by
  induction above generalizing cs with
  | nil =>
      cases cs with
      | nil => simp [nextName]
      | cons c cs => simp [nextName]
  | cons a above ih =>
      cases cs with
      | nil => simp [nextName]
      | cons c cs =>
          rw [nextName]
          by_cases h : a = c
          · subst h
            simp [ih]
          · rw [if_neg h]
            simp [Ne.symm h]

/-- A row that leads below a position, or parts with it at some name. -/
def Leaves (above cs : List Comp) : Prop := (nextName above cs).isSome ∨ Compat above cs

theorem Leaves.not_names_le (h : Leaves above cs) : ¬ names cs <+: names above := by
  intro hpre
  rcases h with hnext | hcompat
  · obtain ⟨k, hk⟩ := Option.isSome_iff_exists.mp hnext
    obtain ⟨c, below, rfl, _⟩ := nextName_eq_some.mp hk
    have hlen := hpre.length_le
    simp only [names, List.length_map, List.length_append, List.length_cons] at hlen
    omega
  · exact not_compat_iff.mpr (Or.inr (Or.inl hpre)) hcompat

theorem nextName_of_compat (h : Compat above cs) : nextName above cs = none := by
  cases hk : nextName above cs with
  | none => rfl
  | some k =>
      obtain ⟨c, below, rfl, _⟩ := nextName_eq_some.mp hk
      refine absurd h (not_compat_iff.mpr (Or.inl ?_))
      rw [names, names, List.map_append]
      exact List.prefix_append _ _

/-- Where the lists along a position have the drawn lengths, a row that leads there puts something
    in place. -/
theorem place_present (ho : ∀ b, o = some b → ListsAlong (fun k n => n = len k) (names above) b)
    (hm : M.mergeInto o (tree len above f) = .ok r) (his : is ∈ indices len above) :
    ∃ z, r.get? (place above is) = some z := by
  induction above generalizing o r f is with
  | nil => exact ⟨r, get?_nil r⟩
  | cons a above ih =>
      obtain ⟨w, hw, hr, _⟩ := mergeInto_tree hm
      have hchild := fun v hv => listsAlong_of_key (v := v) ho hv
      by_cases ha : a.array
      · obtain ⟨i, js, hi, hjs, rfl⟩ := (mem_indices_array ha).mp his
        obtain ⟨zs, rfl, hlen, _, hels⟩ := mergeInto_branch ha hw
        -- the list is as long as drawn, whether it was there or not
        have hlong : i < zs.length := by
          rw [hlen]
          refine lengthOr_of (P := (i < ·)) hi fun xs hx => ?_
          have hdrawn := ((hchild _ hx).2 xs rfl).1
          omega
        have hzi := List.getElem?_eq_getElem hlong
        rw [place_array ha, get?_cons, hr, Option.bind_some, get?_cons, get?_idx_singleton, hzi,
          Option.bind_some]
        exact ih (fun x hx => listsAlong_of_idx (fun v hv xs hxs => ((hchild v hv).2 xs hxs).2) hx)
          (hels i _ hzi).2 hjs
      · rw [indices_object ha] at his
        rw [branch_object ha] at hw
        rw [place_object ha, get?_cons, hr, Option.bind_some]
        exact ih (fun v hv => (hchild v hv).1) hw his

/-- **A row that leads below a position** adds its next name to the fields there. -/
theorem keysOf_merge_of_next
    (ho : ∀ b, o = some b → ListsAlong (fun k n => n = len k) (names above) b)
    (hm : M.mergeInto o (tree len (above ++ c :: cs) f) = .ok r) (his : is ∈ indices len above) :
    ∃ d, r.get? (place above is) = some (.dict d) ∧
      d.map Prod.fst = addKey (keysOf (o.bind (get? (place above is)))) c.name := by
  rw [tree_append] at hm
  obtain ⟨z, hz⟩ := place_present ho hm his
  have hleaf := leaf_of_merge hm his hz
  rw [tree_cons] at hleaf
  obtain ⟨y, _, rfl⟩ := Merger.mergeInto_key_eq_ok.mp hleaf
  exact ⟨_, hz, keys_set _ _ _⟩

/-- Merging rows one after the other adds the names they mention below a position. -/
theorem keysOf_mergeAll {rs : List Filled} {doc doc' : Value}
    (hrs : ∀ r ∈ rs, Leaves above r.path)
    (hdoc : ListsAlong (fun k n => n = len k) (names above) doc)
    (hm : mergeAll M len doc rs = .ok doc') (his : is ∈ indices len above) :
    keysOf (doc'.get? (place above is)) =
      (rs.filterMap fun r => nextName above r.path).foldl addKey
        (keysOf (doc.get? (place above is))) := by
  induction rs generalizing doc with
  | nil =>
      cases hm
      rfl
  | cons r rs ih =>
      obtain ⟨hr, hrs⟩ := List.forall_mem_cons.mp hrs
      obtain ⟨d, hd, hrest⟩ := mergeAll_cons_eq_ok.mp hm
      have hlists : ListsAlong (fun k n => n = len k) (names above) d := by
        refine Merger.listsAlong_merge zipmerge_isZip r.wf_tree hdoc ?_ hd
        exact listsAlong_tree (fun _ _ => rfl) fun hpre => absurd hpre hr.not_names_le
      rw [ih hrs hlists hrest]
      rcases hr with hnext | hcompat
      -- a row that goes on below the object adds the name it goes on with
      · obtain ⟨k, hk⟩ := Option.isSome_iff_exists.mp hnext
        obtain ⟨c, below, hpath, rfl⟩ := nextName_eq_some.mp hk
        have hd' : M.mergeInto (some doc) (tree len (above ++ c :: below) fun is => r.value is) =
            .ok d := by
          rw [← hpath]
          exact hd
        obtain ⟨items, hitems, hkeys⟩ := keysOf_merge_of_next
          (fun b hb => by cases hb; exact hdoc) hd' his
        rw [List.filterMap_cons, hk, List.foldl_cons, hitems]
        exact congrArg (List.foldl addKey · _) hkeys
      -- a row of another path leaves the object alone
      · have hstays := get?_merge_of_compat (o := some doc) hcompat hd his
        rw [List.filterMap_cons, nextName_of_compat hcompat, hstays]
        rfl

/-- The names that the rows mention right below a position, in the order of the rows. -/
def mentions (above : List Comp) (rows : List Row) : List PyStr :=
  rows.filterMap fun row => nextName above (comps row.path)

/-- The keys at a position of the finished document. -/
theorem keysOf_rowLoop {rows : List Row} {doc : Value} {s t : DocState}
    (h : rowLoop M (.dict []) rows s = .ok doc t)
    (hrows : ∀ row ∈ rows, Leaves above (comps row.path))
    (his : is ∈ indices t.counts.len above) :
    keysOf (doc.get? (place above is)) = (mentions above rows).eraseDups := by
  obtain ⟨_, rs, ⟨hpaths, _⟩, hm⟩ := rowLoop_eq_ok.mp h
  have hleaves : ∀ r ∈ rs, Leaves above r.path := by
    intro r hr
    have hmem : r.path ∈ rs.map Filled.path := List.mem_map_of_mem hr
    rw [hpaths] at hmem
    obtain ⟨row, hrow, heq⟩ := List.mem_map.mp hmem
    exact heq ▸ hrows row hrow
  -- the filled rows mention what the rows of the model do
  have hmentions : (rs.filterMap fun r => nextName above r.path) = mentions above rows := by
    have hnames := congrArg (List.filterMap (nextName above)) hpaths
    rw [List.filterMap_map, List.filterMap_map] at hnames
    exact hnames
  have hstart : keysOf ((DataTree.dict [] : Value).get? (place above is)) = [] := by
    cases above with
    | nil => rfl
    | cons a above =>
        rw [place, get?_cons, get?_key_singleton]
        rfl
  rw [keysOf_mergeAll hleaves listsAlong_empty hm his, hstart, hmentions, foldl_addKey]

/-- Only a dictionary has keys. -/
theorem exists_dict_of_keysOf {ks : List PyStr} (h : keysOf o = ks) (hne : ks ≠ []) :
    ∃ d, o = some (.dict d) ∧ d.map Prod.fst = ks := by
  subst h
  cases o with
  | none => exact absurd rfl hne
  | some v =>
      cases v with
      | dict d => exact ⟨d, rfl, rfl⟩
      | atom a => exact absurd rfl hne
      | list xs => exact absurd rfl hne

/-- **Fields stand in the order of their first mention.**  At a position below which some row
    leads, and which no row puts a value in place of or walks with other marks, every instance
    is an object that holds the names mentioned there in the order in which the rows first
    mention them. -/
theorem fields_in_order (M : DocMerger) (rows : List Row) (s t : DocState) (doc : Value)
    (h : rowLoop M (.dict []) rows s = .ok doc t) (above : List Comp)
    (hrows : ∀ row ∈ rows, Leaves above (comps row.path)) (hmention : mentions above rows ≠ [])
    (is : List Nat) (his : is ∈ indices t.counts.len above) :
    ∃ d, doc.get? (place above is) = some (.dict d) ∧
      d.map Prod.fst = (mentions above rows).eraseDups := by
  refine exists_dict_of_keysOf (keysOf_rowLoop h hrows his) fun hnil => hmention ?_
  rw [List.eq_nil_iff_forall_not_mem] at hnil ⊢
  exact fun k hk => hnil k (List.mem_eraseDups.mpr hk)

/-- An array of objects with two fields, and a field of the document between them. -/
def orderRows : List Row :=
  [⟨"a().y".toList, .ret (.int 1)⟩, ⟨"b".toList, .ret (.int 2)⟩, ⟨"a().x".toList, .ret (.int 3)⟩,
    ⟨"a().y".toList, .ret (.int 4)⟩]

/-- The values of `orderRows`. -/
def orderValues : List Filled :=
  [⟨[⟨"a".toList, true⟩, ⟨"y".toList, false⟩], fun _ => .int 1⟩,
    ⟨[⟨"b".toList, false⟩], fun _ => .int 2⟩,
    ⟨[⟨"a".toList, true⟩, ⟨"x".toList, false⟩], fun _ => .int 3⟩,
    ⟨[⟨"a".toList, true⟩, ⟨"y".toList, false⟩], fun _ => .int 4⟩]

/-- The document of `orderRows`. -/
def orderDoc : Value :=
  let element : Value := .dict [("y".toList, .atom (.int 4)), ("x".toList, .atom (.int 3))]
  .dict [("a".toList, .list [element, element]), ("b".toList, .atom (.int 2))]

theorem orderRows_rowLoop :
    rowLoop merger (.dict []) orderRows (DocState.start twoWorld) =
      .ok orderDoc (lengthOfA (Nat.succPNat 1) twoWorld) :=
  rowLoop_eq_ok.mpr ⟨by decide, orderValues,
    .cons (by decide) rfl (.cons (by decide) rfl (.cons (by decide) rfl
      (.cons (by decide) rfl (.nil _)))), rfl⟩

/-- The second element holds `y` before `x`, though its value of `y` is the last row's. -/
theorem orderRows_in_order :
    ∃ d, orderDoc.get? (place [⟨"a".toList, true⟩] [1]) = some (.dict d) ∧
      d.map Prod.fst = (mentions [⟨"a".toList, true⟩] orderRows).eraseDups :=
  fields_in_order merger orderRows _ _ _ orderRows_rowLoop [⟨"a".toList, true⟩]
    (by
      intro row hrow
      simp only [orderRows, List.mem_cons, List.not_mem_nil, or_false] at hrow
      rcases hrow with rfl | rfl | rfl | rfl
      · exact Or.inl (by decide)
      · exact Or.inr (by decide)
      · exact Or.inl (by decide)
      · exact Or.inl (by decide))
    (by decide) [1] (by decide)

-- ============================================================================
-- Batches
-- ============================================================================

/-- Every path leads below the document itself. -/
theorem leaves_nil {path : List PyStr} (h : path ≠ []) : (nextName [] (comps path)).isSome := by
  obtain ⟨c, below, hcs⟩ := List.exists_cons_of_ne_nil (comps_ne_nil h)
  rw [hcs]
  rfl

/-- **The documents of a batch are alike.**  Every document of every batch is an object with the
    fields that the rows of its model mention first, in the order of their first mention: for
    every model, every history of the process and every value a generator returns. -/
theorem batch_fields_in_order (M : DocMerger) (env : Env) (model : PyStr) (n : Int)
    (rows : List Row)
    (hrows : (env.rows (templatePath env model)).mapM (readRow env) = .ok rows)
    (w w' : World) (docs : List Value) (h : bulkFetch M env model n w = .ok docs w') :
    ∀ doc ∈ docs, ∃ d, doc = .dict d ∧ d.map Prod.fst = (mentions [] rows).eraseDups := by
  rw [bulkFetch] at h
  split at h
  · refine forall_mem_mapM (fun {u doc v} hdoc => ?_) _ h
    obtain ⟨rows', t, hread, hloop, _⟩ := fetchDoc_eq_ok.mp hdoc
    rw [hrows] at hread
    cases hread
    have hwalk := (rowLoop_eq_ok.mp hloop).1
    have hleaves : ∀ row ∈ rows, Leaves [] (comps row.path) :=
      fun row hrow => Or.inl (leaves_nil (hwalk row hrow).ne_nil)
    -- the whole document is the object at the empty position
    have hkeys := keysOf_rowLoop hloop hleaves List.mem_cons_self
    rw [place, get?_nil] at hkeys
    cases rows with
    | nil =>
        cases hloop
        exact ⟨[], rfl, rfl⟩
    | cons row rows =>
        obtain ⟨k, hk⟩ := Option.isSome_iff_exists.mp
          (leaves_nil (hwalk row List.mem_cons_self).ne_nil)
        -- one row at least, so there is a field and the document is a dictionary
        have hne : (mentions [] (row :: rows)).eraseDups ≠ [] := by
          rw [mentions, List.filterMap_cons, hk, List.eraseDups_cons]
          exact List.cons_ne_nil _ _
        obtain ⟨d, hd, hkeys⟩ := exists_dict_of_keysOf hkeys hne
        exact ⟨d, Option.some.inj hd, hkeys⟩
  · cases h

/-- Three documents with the members, and then their number. -/
theorem memberRows_batch_in_order : ∃ docs w',
    bulkFetch merger memberEnv "member.csv".toList 3 (World.fresh fun _ => 1) = .ok docs w' ∧
      docs.length = 3 ∧ (mentions [] memberRows).eraseDups = ["members".toList, "count".toList] ∧
      ∀ doc ∈ docs, ∃ d, doc = .dict d ∧ d.map Prod.fst = (mentions [] memberRows).eraseDups := by
  obtain ⟨docs, w', hrun, hlen, _⟩ :=
    (bulkFetch_returns merger memberEnv "member.csv".toList 3 rfl rfl memberRows_tame).returns
      (roomy_fresh fun _ => 1)
  exact ⟨docs, w', hrun, hlen, by decide,
    batch_fields_in_order merger memberEnv "member.csv".toList 3 memberRows rfl _ w' docs hrun⟩

end MLocust.Faker
