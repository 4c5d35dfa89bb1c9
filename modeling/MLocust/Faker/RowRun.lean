/-
  MLocust.Faker.RowRun

  What `procpath` does on a path it can walk, in two phases.

  The first descent looks up every array length of the path before the generator
  is evaluated once; every later lookup finds its length.  So a run is: draw the
  lengths of the path's arrays (`drawLengths`), then evaluate the generator once
  for every leaf in row-major order and build the tree (`fill`).  `procpath_eq` is
  that equation between programs, errors and states included.

  `rowValues` runs the same two phases but keeps the list of generated values in
  place of the tree; `procpath_eq_ok` says how the tree holds them.
-/
import MLocust.Faker.BulkFetch
import MLocust.Faker.Path

namespace MLocust.Faker

open Lib Lib.Program PyStr

-- ============================================================================
-- Drawing lengths
-- ============================================================================

/-- The drawn length of the arrays called `name`, `0` before it is drawn. -/
def Counts.len (counts : Counts) (name : PyStr) : Nat :=
  match counts name with
  | some n => n
  | none => 0

theorem Counts.len_of_some {counts : Counts} {name : PyStr} {n : ℕ+}
    (h : counts name = some n) : counts.len name = n := by
  rw [Counts.len, h]

/-- Look up the lengths of the given names, in order. -/
def drawLengths : List PyStr → Py DocState PUnit
  | [] => pure ⟨⟩
  | name :: rest => do
      let _ ← lookupCount name
      drawLengths rest

/-- What looking up the names `ks` changes: missing lengths are drawn against the
    current `maxArraySize`, and the random source advances. -/
structure Drawn (ks : List PyStr) (s t : DocState) : Prop where
  mono : ∀ k n, s.counts k = some n → t.counts k = some n
  present : ∀ k ∈ ks, ∃ n, t.counts k = some n
  new : ∀ k n, t.counts k = some n →
    s.counts k = some n ∨ (k ∈ ks ∧ (n : Int) ≤ s.world.maxArraySize)
  idMap : t.world.idMap = s.world.idMap
  maxArraySize : t.world.maxArraySize = s.world.maxArraySize
  calls : t.world.calls = s.world.calls

theorem Drawn.refl (s : DocState) : Drawn [] s s :=
  ⟨fun _ _ h => h, fun _ h => (nomatch h), fun _ _ h => Or.inl h, rfl, rfl, rfl⟩

theorem Drawn.append {ks ls : List PyStr} {s t u : DocState} (h : Drawn ks s t)
    (h' : Drawn ls t u) : Drawn (ks ++ ls) s u where
  mono := fun k n hn => h'.mono k n (h.mono k n hn)
  present := by
    intro k hk
    rcases List.mem_append.mp hk with hk | hk
    · obtain ⟨n, hn⟩ := h.present k hk
      exact ⟨n, h'.mono k n hn⟩
    · exact h'.present k hk
  new := by
    intro k n hn
    rcases h'.new k n hn with ht | ⟨hk, hle⟩
    · rcases h.new k n ht with hs | ⟨hk, hle⟩
      · exact Or.inl hs
      · exact Or.inr ⟨List.mem_append_left _ hk, hle⟩
    · rw [h.maxArraySize] at hle
      exact Or.inr ⟨List.mem_append_right _ hk, hle⟩
  idMap := h'.idMap.trans h.idMap
  maxArraySize := h'.maxArraySize.trans h.maxArraySize
  calls := h'.calls.trans h.calls

theorem lookupCount_eq_ok {name : PyStr} {s t : DocState} {n : ℕ+}
    (h : lookupCount name s = .ok n t) : t.counts name = some n ∧ Drawn [name] s t := by
  cases hc : s.counts name with
  -- a length that is already there
  | some m =>
      rw [lookupCount_of_some hc] at h
      cases h
      refine ⟨hc, fun _ _ h => h, ?_, fun _ _ h => Or.inl h, rfl, rfl, rfl⟩
      intro k hk
      rw [List.mem_singleton.mp hk]
      exact ⟨n, hc⟩
  -- a new one is drawn, and all others stay
  | none =>
      rw [lookupCount_of_none hc] at h
      cases hr : randintFromOne s.world.maxArraySize s.world with
      | error e w =>
          rw [hr] at h
          cases h
      | ok m w =>
          rw [hr] at h
          cases h
          obtain ⟨hle, rfl⟩ := randintFromOne_eq_ok hr
          refine ⟨Function.update_self name _ s.counts, ?_, ?_, ?_, rfl, rfl, rfl⟩
          · intro k m hm
            have hne : k ≠ name := by
              rintro rfl
              rw [hc] at hm
              cases hm
            show Function.update s.counts name (some n) k = some m
            rw [Function.update_of_ne hne, hm]
          · intro k hk
            rw [List.mem_singleton.mp hk]
            exact ⟨n, Function.update_self ..⟩
          · intro k m hm
            by_cases hk : k = name
            · subst hk
              have hmn : some n = some m := by
                rw [← hm]
                exact (Function.update_self k (some n) s.counts).symm
              cases hmn
              exact Or.inr ⟨List.mem_singleton_self k, hle⟩
            · left
              rw [← hm]
              exact (Function.update_of_ne hk ..).symm

theorem drawLengths_eq_ok {ks : List PyStr} {s t : DocState} {u : PUnit}
    (h : drawLengths ks s = .ok u t) : Drawn ks s t := by
  induction ks generalizing s with
  | nil =>
      cases h
      exact .refl _
  | cons k ks ih =>
      obtain ⟨n, s₁, hk, hks⟩ := bind_eq_ok.mp h
      exact (lookupCount_eq_ok hk).2.append (ih hks)

/-- Lengths that are all drawn already are looked up without any effect. -/
theorem drawLengths_of_present {ks : List PyStr} {s : DocState}
    (h : ∀ k ∈ ks, ∃ n, s.counts k = some n) : drawLengths ks s = .ok ⟨⟩ s := by
  induction ks with
  | nil => rfl
  | cons k ks ih =>
      obtain ⟨n, hn⟩ := h k List.mem_cons_self
      rw [drawLengths, bind_of_ok (lookupCount_of_some hn)]
      exact ih fun k' hk' => h k' (List.mem_cons_of_mem _ hk')

-- ============================================================================
-- Filling in the leaves
-- ============================================================================

/-- Evaluate the generator for every leaf of a path with known array lengths. -/
def fill (len : PyStr → Nat) (g : Gen) : List Comp → Py World Value
  | [] => do
      let v ← g.eval
      pure v.val
  | c :: cs =>
      if c.array then do
        let xs ← (List.range (len c.name)).mapM fun _ => fill len g cs
        pure (.dict [(c.name, .list xs)])
      else do
        let t ← fill len g cs
        pure (.dict [(c.name, t)])

/-- The two phases of `procpath`. -/
def rowRun (cs : List Comp) (g : Gen) : Py DocState Value := do
  drawLengths (arrayNames cs)
  let s ← get
  onWorld (fill s.counts.len g cs)

theorem onWorld_pure {α : Type} (a : α) : onWorld (pure a : Py World α) = pure a :=
  zoom_pure (fun _ => rfl) a

theorem onWorld_bind {α β : Type} (x : Py World α) (f : α → Py World β) :
    onWorld (x >>= f) = onWorld x >>= fun a => onWorld (f a) := by
  apply zoom_bind
  · exact fun _ _ => rfl
  · exact fun _ _ _ => rfl

theorem onWorld_mapM {α β : Type} (f : α → Py World β) (l : List α) :
    onWorld (l.mapM f) = l.mapM fun a => onWorld (f a) := by
  apply zoom_mapM
  · exact fun _ => rfl
  · exact fun _ _ => rfl
  · exact fun _ _ _ => rfl

theorem onWorld_counts {α : Type} {x : Py World α} {s t : DocState} {a : α}
    (h : onWorld x s = .ok a t) : t.counts = s.counts := by
  obtain ⟨w, _, rfl⟩ := zoom_eq_ok.mp h
  rfl

/-- Once the lengths are drawn, only the leaves are left to fill in. -/
theorem rowRun_of_present {cs : List Comp} {s : DocState} (g : Gen)
    (h : ∀ k ∈ arrayNames cs, ∃ n, s.counts k = some n) :
    rowRun cs g s = onWorld (fill s.counts.len g cs) s := by
  rw [rowRun, bind_of_ok (drawLengths_of_present h), bind_of_ok (get_apply s)]

theorem mapM_rowRun_of_present {α : Type} {cs : List Comp} {counts : Counts} (g : Gen)
    (h : ∀ k ∈ arrayNames cs, ∃ n, counts k = some n) (l : List α) {s : DocState}
    (hs : s.counts = counts) :
    (l.mapM fun _ => rowRun cs g) s = (l.mapM fun _ => onWorld (fill counts.len g cs)) s := by
  induction l generalizing s with
  | nil => rfl
  | cons a l ih =>
      rw [List.mapM_cons, List.mapM_cons, bind_apply, bind_apply,
        rowRun_of_present g (by rw [hs]; exact h), hs]
      cases hx : onWorld (fill counts.len g cs) s with
      | error e t => rfl
      | ok v t =>
          show ((l.mapM fun _ => rowRun cs g) >>= _) t =
            ((l.mapM fun _ => onWorld (fill counts.len g cs)) >>= _) t
          rw [bind_apply, bind_apply, ih ((onWorld_counts hx).trans hs)]

/-- The elements of an array: the first one draws the lengths below it, and all of them
    are then filled in with the same lengths. -/
theorem mapM_rowRun_range {cs : List Comp} (g : Gen) (n : ℕ+) (s : DocState) :
    ((List.range n).mapM fun _ => rowRun cs g) s =
      (drawLengths (arrayNames cs) >>= fun _ => get >>= fun t =>
        (List.range n).mapM fun _ => onWorld (fill t.counts.len g cs)) s := by
  cases hd : drawLengths (arrayNames cs) s with
  | ok u t =>
      have ht := (drawLengths_eq_ok hd).present
      have hfirst : rowRun cs g s = rowRun cs g t := by
        rw [rowRun_of_present g ht, rowRun, bind_of_ok hd, bind_of_ok (get_apply t)]
      have hall : ((List.range n).mapM fun _ => rowRun cs g) s =
          ((List.range n).mapM fun _ => rowRun cs g) t := by
        rw [show (n : Nat) = (n.natPred + 1) from n.natPred_add_one.symm,
          List.range_succ_eq_map, List.mapM_cons, bind_apply, bind_apply, hfirst]
      rw [hall, mapM_rowRun_of_present g ht _ rfl, bind_of_ok hd, bind_of_ok (get_apply t)]
  | error e t =>
      rw [bind_of_error hd, show (n : Nat) = (n.natPred + 1) from n.natPred_add_one.symm,
        List.range_succ_eq_map, List.mapM_cons]
      apply bind_of_error
      rw [rowRun, bind_of_error hd]

-- ============================================================================
-- procpath runs in two phases
-- ============================================================================

theorem getItem_singleton (k : PyStr) (v : Value) : getItem (.dict [(k, v)]) k = .ok v := by
  simp [getItem]

/-- On the recursive call of the array branch, `procpath` runs the object branch and
    the lookup that follows finds its key. -/
theorem procpath_stripMarker {component : PyStr} {rest : List PyStr} (hne : component ≠ [])
    (hrest : rest ≠ []) (hparen : ¬ startsWithParen component) (g : Gen) :
    (do
      let element ← procpath (stripMarker component :: rest) g
      fromExcept (getItem element (stripName component)) : Py DocState Value) =
      procpath rest g := by
  cases component with
  | nil => exact absurd rfl hne
  | cons c s =>
      have hc : ¬ isParen c := hparen
      rw [procpath_object (stripMarker_ne_nil hc s) hrest
        (not_endsWithMarker_stripMarker _) g, stripName_stripMarker hc, bind_assoc]
      simp only [pure_bind, getItem_singleton, fromExcept_ok, bind_pure]

/-- **The two phases.**  `procpath` on a walkable path draws the array lengths and then
    fills in the leaves. -/
theorem procpath_eq {path : List PyStr} (h : Walkable path) (g : Gen) :
    procpath path g = rowRun (comps path) g := by
  induction path with
  | nil => exact h.elim
  | cons component rest ih =>
      by_cases hrest : rest = []
      · subst hrest
        -- the last component draws nothing and evaluates the generator once
        rw [procpath_last h, comps, rowRun]
        funext s
        show _ = onWorld (fill s.counts.len g [⟨stripName component, false⟩]) s
        rw [fill, if_neg (by simp)]
        simp only [fill, bind_assoc, pure_bind, onWorld_bind, onWorld_pure]
      · obtain ⟨hne, hmark, hwalk⟩ := (walkable_cons hrest).mp h
        rw [comps_cons hrest]
        by_cases harr : endsWithMarker component
        · have hparen : ¬ startsWithParen component := fun hp => hmark ⟨harr, hp⟩
          -- array: its length, and then the rest of the path for each element; once drawn,
          -- lengths do not change, so the elements run alike
          rw [procpath_array hne hrest harr, procpath_stripMarker hne hrest hparen, ih hwalk]
          have hnames := arrayNames_array (c := ⟨stripName component, endsWithMarker component⟩)
            harr (comps rest)
          funext s
          show _ = (drawLengths (arrayNames (⟨stripName component,
            endsWithMarker component⟩ :: comps rest)) >>= _) s
          rw [hnames, drawLengths]
          cases hk : lookupCount (stripName component) s with
          | error e t => rw [bind_of_error hk, bind_assoc, bind_of_error hk]
          | ok n t =>
              rw [bind_of_ok hk, bind_assoc, bind_of_ok hk, bind_apply, mapM_rowRun_range]
              cases hd : drawLengths (arrayNames (comps rest)) t with
              | error e u => rw [bind_of_error hd, bind_of_error hd]
              | ok x u =>
                  have hlen : u.counts.len (stripName component) = n :=
                    Counts.len_of_some
                      ((drawLengths_eq_ok hd).mono _ _ (lookupCount_eq_ok hk).1)
                  rw [bind_of_ok hd, bind_of_ok hd, bind_of_ok (get_apply u),
                    bind_of_ok (get_apply u), fill, if_pos harr, hlen, onWorld_bind,
                    onWorld_mapM, bind_apply]
                  simp only [onWorld_pure]
        -- object: the rest of the path under the name
        · rw [procpath_object hne hrest harr, ih hwalk]
          have hnames := arrayNames_object (c := ⟨stripName component, endsWithMarker component⟩)
            harr (comps rest)
          rw [rowRun, rowRun, hnames]
          simp only [bind_assoc, fill, harr, Bool.false_eq_true, if_false, onWorld_bind,
            onWorld_pure]

-- ============================================================================
-- The generated values of a row
-- ============================================================================

instance : Inhabited PyValue := ⟨.int 0⟩

/-- The partial tree of a path whose leaves are generated values. -/
def valueTree (len : PyStr → Nat) (cs : List Comp) (f : List Nat → PyValue) : Value :=
  tree len cs fun is => (f is).val

/-- The values at the index tuples of the leaves determine the tree. -/
theorem tree_congr {len : PyStr → Nat} {cs : List Comp} {f f' : List Nat → Value}
    (h : ∀ is ∈ indices len cs, f is = f' is) : tree len cs f = tree len cs f' := by
  induction cs generalizing f f' with
  | nil => exact h [] List.mem_cons_self
  | cons c cs ih =>
      by_cases hc : c.array
      · have hel : ∀ i ∈ List.range (len c.name),
            (tree len cs fun is => f (i :: is)) = tree len cs fun is => f' (i :: is) := by
          intro i hi
          refine ih fun is his => h _ ?_
          exact (mem_indices_array hc).mpr ⟨i, is, List.mem_range.mp hi, his, rfl⟩
        rw [tree_cons, tree_cons, branch_array hc, branch_array hc, List.map_congr_left hel]
      · rw [tree_cons, tree_cons, branch_object hc, branch_object hc,
          ih fun is his => h is (by rwa [indices_object hc])]

theorem valueTree_congr {len : PyStr → Nat} {cs : List Comp} {f f' : List Nat → PyValue}
    (h : ∀ is ∈ indices len cs, f is = f' is) : valueTree len cs f = valueTree len cs f' :=
  tree_congr fun is his => congrArg Subtype.val (h is his)

/-- Evaluate the generator once for every leaf, in row-major order. -/
def leaves (len : PyStr → Nat) (g : Gen) (cs : List Comp) : Py World (List PyValue) :=
  (indices len cs).mapM fun _ => g.eval

/-- What a row draws and evaluates, without the tree: the values its generator returns, in
    row-major order. -/
def rowValues (cs : List Comp) (g : Gen) : Py DocState (List PyValue) := do
  drawLengths (arrayNames cs)
  let s ← get
  onWorld (leaves s.counts.len g cs)

theorem fill_related (len : PyStr → Nat) (g : Gen) (cs : List Comp) :
    Related Eq (fun t vs => ∃ f, t = valueTree len cs f ∧ vs = (indices len cs).map f)
      (fill len g cs) (leaves len g cs) := by
  induction cs with
  | nil =>
      rw [fill, leaves, indices, List.mapM_cons, List.mapM_nil]
      refine Related.bind (R := Eq) (Related.refl g.eval) fun v w hvw => Related.pure ?_
      exact ⟨fun _ => v, rfl, by rw [hvw]; rfl⟩
  | cons c cs ih =>
      by_cases hc : c.array
      · rw [fill, if_pos hc, leaves, indices_array hc, mapM_flatMap]
        simp only [List.mapM_map]
        refine (Related.mapM_choose (fun _ : Nat => ih) List.nodup_range).bind
          fun xs vss hxs => Related.pure ?_
        obtain ⟨F, rfl, rfl⟩ := hxs
        -- element `i` has the values of its own run
        refine ⟨fun is => F is.head! is.tail, ?_, ?_⟩
        · rw [valueTree, tree_cons, branch_array hc]
          rfl
        · simp only [List.map_flatMap, List.map_map]
          rfl
      · rw [fill, if_neg hc, leaves, indices_object hc]
        show Related _ _ _ (leaves len g cs)
        rw [← bind_pure (leaves len g cs)]
        refine ih.bind fun t vs ht => Related.pure ?_
        obtain ⟨f, rfl, rfl⟩ := ht
        refine ⟨f, ?_, rfl⟩
        show _ = tree len (c :: cs) fun is => (f is).val
        rw [tree_cons, branch_object hc]
        rfl

/-- What a row's run went through: the lengths were drawn, then the generator was
    evaluated for every leaf. -/
theorem rowValues_eq_ok {cs : List Comp} {g : Gen} {s t : DocState} {vs : List PyValue} :
    rowValues cs g s = .ok vs t ↔ ∃ u, drawLengths (arrayNames cs) s = .ok ⟨⟩ u ∧
      t.counts = u.counts ∧ leaves t.counts.len g cs u.world = .ok vs t.world := by
  rw [rowValues, bind_eq_ok]
  constructor
  · rintro ⟨_, u, hu, h⟩
    rw [bind_of_ok (get_apply u)] at h
    obtain ⟨w, hw, rfl⟩ := zoom_eq_ok.mp h
    exact ⟨u, hu, rfl, hw⟩
  · rintro ⟨u, hu, hcounts, h⟩
    refine ⟨⟨⟩, u, hu, ?_⟩
    rw [bind_of_ok (get_apply u)]
    refine zoom_eq_ok.mpr ⟨t.world, ?_, ?_⟩
    · rw [← hcounts, h]
    · show t = ⟨u.counts, t.world⟩
      rw [← hcounts]

/-- A row's run returns a tree whose leaves are the generated values, in place. -/
theorem rowRun_eq_ok {cs : List Comp} {g : Gen} {s t : DocState} {v : Value} :
    rowRun cs g s = .ok v t ↔ ∃ f, v = valueTree t.counts.len cs f ∧
      rowValues cs g s = .ok ((indices t.counts.len cs).map f) t := by
  rw [rowRun, bind_eq_ok]
  constructor
  · rintro ⟨_, u, hu, h⟩
    rw [bind_of_ok (get_apply u)] at h
    obtain ⟨w, hw, rfl⟩ := zoom_eq_ok.mp h
    obtain ⟨vs, w', hvs, ⟨f, hv, rfl⟩, rfl⟩ := (fill_related _ g cs).of_ok rfl hw
    exact ⟨f, hv, rowValues_eq_ok.mpr ⟨u, hu, rfl, hvs⟩⟩
  · rintro ⟨f, rfl, h⟩
    obtain ⟨u, hu, hcounts, hvs⟩ := rowValues_eq_ok.mp h
    refine ⟨⟨⟩, u, hu, ?_⟩
    obtain ⟨v, w, hv, ⟨f', rfl, hf'⟩, rfl⟩ := (fill_related _ g cs).flip.of_ok rfl hvs
    rw [bind_of_ok (get_apply u)]
    refine zoom_eq_ok.mpr ⟨t.world, ?_, ?_⟩
    · rw [← hcounts, hv, valueTree_congr (List.map_inj_left.mp hf')]
    · show t = ⟨u.counts, t.world⟩
      rw [← hcounts]

/-- **The tree and the values of one run.**  `procpath` returns exactly when drawing the
    lengths and evaluating the leaves does, and its tree holds the values in place. -/
theorem procpath_eq_ok {path : List PyStr} (hp : Walkable path) {g : Gen} {s t : DocState}
    {v : Value} :
    procpath path g s = .ok v t ↔ ∃ f, v = valueTree t.counts.len (comps path) f ∧
      rowValues (comps path) g s = .ok ((indices t.counts.len (comps path)).map f) t := by
  rw [procpath_eq hp, rowRun_eq_ok]

end MLocust.Faker
