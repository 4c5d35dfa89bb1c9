/-
  MLocust.Faker.Commute

  Compatible rows commute.

  Merging two partial trees of compatible paths, in either order, into the same
  base raises in both orders or in neither, and gives the same document up to key
  order, whatever the base holds (`compatible_rows_commute`).  The proof follows
  both paths: as long as they share a name the merges meet in one branch, and the
  lists of that branch are compared element by element; where the names part, two
  different keys are set.
-/
import MLocust.Faker.LeafMerge

namespace MLocust.Faker

open Lib Lib.Program DataTree PyStr

variable {len : PyStr → Nat} {M : DocMerger} {o : Option Value} {r : Value}
  {c d : Comp} {cs ds : List Comp} {f g : List Nat → Value}

/-- Whatever the two trees merge to in one order, they do in the other. -/
def Swaps (M : DocMerger) (o : Option Value) (p q : Value) : Prop :=
  ∀ d₁ r, M.mergeInto o p = .ok d₁ → M.merge d₁ q = .ok r →
    ∃ d₂ r', M.mergeInto o q = .ok d₂ ∧ M.merge d₂ p = .ok r' ∧ Same r r'

/-- Two arrays under one name swap if their elements do, at every position. -/
theorem swaps_array (hc : c.array) (hd : d.array) (hname : d.name = c.name)
    (hels : ∀ (o : Option Value) i, Swaps M o (tree len cs fun is => f (i :: is))
      (tree len ds fun is => g (i :: is))) :
    Swaps M o (branch len c cs f) (branch len d ds g) := by
  intro d₁ r h₁ h₂
  obtain ⟨zs, rfl, hzlen, hzle, hz⟩ := mergeInto_branch hc h₁
  obtain ⟨rs, rfl, hrlen, _, hr⟩ := mergeInto_branch (o := some (.list zs)) hd h₂
  have hrzlen : rs.length = zs.length := hrlen
  -- position by position, both orders
  have hstep : ∀ i, i < zs.length → ∃ a b b', rs[i]? = some b ∧
      M.mergeInto (o.bind (get? [.idx i])) (tree len ds fun is => g (i :: is)) = .ok a ∧
      M.merge a (tree len cs fun is => f (i :: is)) = .ok b' ∧ Same b b' := by
    intro i hi
    have hzi := List.getElem?_eq_getElem hi
    have hri := List.getElem?_eq_getElem (hrzlen ▸ hi)
    have hmerge := (hr i _ hri).2
    rw [Option.bind_some, get?_idx_singleton, hzi, M.mergeInto_some] at hmerge
    obtain ⟨a, b', ha, hb', hsame⟩ := hels _ i _ _ (hz i _ hzi).2 hmerge
    exact ⟨a, _, b', hri, ha, hb', hsame⟩
  -- the other order does not raise: its first merge
  have hsecond : ∃ w, M.mergeInto o (branch len d ds g) = .ok w := by
    have hle : lengthOr o (len d.name) ≤ len d.name := by
      rw [hname]
      omega
    refine exists_mergeInto_branch hd hle fun i _ => ?_
    by_cases hlt : i < zs.length
    · obtain ⟨a, _, _, _, ha, _⟩ := hstep i hlt
      exact ⟨a, ha⟩
    · rw [bind_get?_idx_eq_none (m := len c.name) (by omega)]
      exact ⟨_, rfl⟩
  obtain ⟨w, hw⟩ := hsecond
  obtain ⟨ws, rfl, hwlen, hwle, hwels⟩ := mergeInto_branch hd hw
  rw [hname] at hwlen hwle
  -- and its second one, into what the first one left
  have hfirst : ∃ z, M.mergeInto (some (.list ws)) (branch len c cs f) = .ok z := by
    refine exists_mergeInto_branch hc hwle fun i _ => ?_
    rw [Option.bind_some, get?_idx_singleton]
    cases hwi : ws[i]? with
    | none => exact ⟨_, rfl⟩
    | some u =>
        have hlt := (List.getElem?_eq_some_iff.mp hwi).1
        obtain ⟨a, _, b', _, ha, hb', _⟩ := hstep i (by omega)
        have hu := (hwels i u hwi).2
        rw [ha] at hu
        cases hu
        exact ⟨b', hb'⟩
  obtain ⟨z, hz'⟩ := hfirst
  obtain ⟨rs', rfl, hrlen', _, hr'⟩ := mergeInto_branch hc hz'
  have hlen' : rs'.length = ws.length := hrlen'
  -- the results agree at every position, by `hstep` there
  refine ⟨_, _, hw, hz', same_list_iff.mpr (List.forall₂_iff_get.mpr ⟨by omega, ?_⟩)⟩
  intro i hi hi'
  obtain ⟨a, b, b', hb, ha, hb', hsame⟩ := hstep i (by omega)
  have hwi := List.getElem?_eq_getElem (show i < ws.length by omega)
  have hri' := List.getElem?_eq_getElem hi'
  have hu := (hwels i _ hwi).2
  rw [ha] at hu
  cases hu
  have hv := (hr' i _ hri').2
  rw [Option.bind_some, get?_idx_singleton, hwi, M.mergeInto_some, hb'] at hv
  rw [List.getElem?_eq_getElem hi] at hb
  cases hb
  cases hv
  exact hsame

/-- Branches under different names swap. -/
theorem swaps_ne (hname : c.name ≠ d.name) :
    Swaps M o (tree len (c :: cs) f) (tree len (d :: ds) g) := by
  intro d₁ r h₁ h₂
  rw [tree_cons] at h₁ h₂
  obtain ⟨z, hz, rfl⟩ := Merger.mergeInto_key_eq_ok.mp h₁
  obtain ⟨w, hw, rfl⟩ := (Merger.mergeInto_key_eq_ok (o := some _)).mp h₂
  rw [Option.bind_some, get?_key_singleton, Dict.lookup_set_ne hname, ← bind_get?_key] at hw
  refine ⟨_, _, Merger.mergeInto_key_eq_ok.mpr ⟨w, hw, rfl⟩,
    (Merger.mergeInto_key_eq_ok (o := some _)).mpr ⟨z, ?_, rfl⟩, same_set_comm hname z w _⟩
  rw [Option.bind_some, get?_key_singleton, Dict.lookup_set_ne (Ne.symm hname), ← bind_get?_key]
  exact hz

/-- Branches under one name swap if they swap on what is there. -/
theorem swaps_eq (hname : d.name = c.name)
    (h : Swaps M (o.bind (get? [.key c.name])) (branch len c cs f) (branch len d ds g)) :
    Swaps M o (tree len (c :: cs) f) (tree len (d :: ds) g) := by
  intro d₁ r h₁ h₂
  rw [tree_cons] at h₁ h₂
  obtain ⟨z, hz, rfl⟩ := Merger.mergeInto_key_eq_ok.mp h₁
  obtain ⟨w, hw, rfl⟩ := (Merger.mergeInto_key_eq_ok (o := some _)).mp h₂
  rw [Option.bind_some, get?_key_singleton, hname, Dict.lookup_set_self, M.mergeInto_some] at hw
  obtain ⟨a, b, ha, hb, hsame⟩ := h z w hz hw
  rw [← hname] at ha
  refine ⟨_, _, Merger.mergeInto_key_eq_ok.mpr ⟨a, ha, rfl⟩,
    (Merger.mergeInto_key_eq_ok (o := some _)).mpr ⟨b, ?_, rfl⟩, ?_⟩
  · rw [Option.bind_some, get?_key_singleton, hname, Dict.lookup_set_self]
    exact hb
  · rw [hname]
    exact same_set_set hsame _

/-- **Compatible partial trees swap**, whatever the base holds. -/
theorem swaps_of_compat (h : Compat cs ds) : Swaps M o (tree len cs f) (tree len ds g) := by
  induction cs generalizing ds o f g with
  | nil => exact h.elim
  | cons c cs ih =>
      cases ds with
      | nil => exact h.elim
      | cons d ds =>
          by_cases hname : d.name = c.name
          · obtain ⟨harr, hcompat⟩ := h.resolve_left (fun hne => hne hname.symm)
            apply swaps_eq hname
            by_cases hc : c.array
            · exact swaps_array hc (harr ▸ hc) hname fun o i => ih hcompat
            · have hd : ¬ d.array := fun hd => hc (harr ▸ hd)
              rw [branch_object hc, branch_object hd]
              exact ih hcompat
          · exact swaps_ne (Ne.symm hname)

/-- Swapping two adjacent rows that are compatible does not change the document. -/
theorem mergeAll_swap {pre post : List Filled} {p q : Filled} {doc : Value}
    (h : Compat p.path q.path) (hm : mergeAll M len doc (pre ++ p :: q :: post) = .ok r) :
    ∃ r', mergeAll M len doc (pre ++ q :: p :: post) = .ok r' ∧ Same r r' := by
  obtain ⟨d, hpre, hrest⟩ := mergeAll_append_eq_ok.mp hm
  obtain ⟨d₁, hp, hrest⟩ := mergeAll_cons_eq_ok.mp hrest
  obtain ⟨d₂, hq, hpost⟩ := mergeAll_cons_eq_ok.mp hrest
  obtain ⟨e₁, e₂, hq', hp', hsame⟩ := swaps_of_compat (o := some d) h d₁ d₂ hp hq
  obtain ⟨r', hr', hrr⟩ := mergeAll_congr_left hsame hpost
  refine ⟨r', mergeAll_append_eq_ok.mpr ⟨d, hpre, ?_⟩, hrr⟩
  exact mergeAll_cons_eq_ok.mpr ⟨e₁, hq', mergeAll_cons_eq_ok.mpr ⟨e₂, hp', hr'⟩⟩

/-- The document after merging two partial trees, one after the other. -/
def mergeBoth (M : DocMerger) (d p q : Value) : Except PyErr Value := do
  let d' ← M.merge d p
  M.merge d' q

/-- **Compatible rows commute.**  Two partial trees that `procpath` returns for paths without
    conflict, under the same array lengths, can be merged into any document in either
    order: both orders raise or neither does, and the results are the same up to key order.
    So adjacent rows of a model without conflict can be swapped. -/
theorem compatible_rows_commute {path₁ path₂ : List PyStr}
    (hconf : ¬ Conflict (comps path₁) (comps path₂)) {g₁ g₂ : Gen} {s₁ s₂ t₁ t₂ : DocState}
    {p q : Value} (hp : procpath path₁ g₁ s₁ = .ok p t₁) (hq : procpath path₂ g₂ s₂ = .ok q t₂)
    (hlen : ∀ k n m, t₁.counts k = some n → t₂.counts k = some m → n = m) (d : Value) :
    ((∃ r, mergeBoth M d p q = .ok r) ↔ ∃ r, mergeBoth M d q p = .ok r) ∧
    (∀ r r', mergeBoth M d p q = .ok r → mergeBoth M d q p = .ok r' → Same r r') ∧
    ∀ (len : PyStr → Nat) (pre post : List Filled) (row row' : Filled) (r : Value),
      row.path = comps path₁ → row'.path = comps path₂ →
      mergeAll M len d (pre ++ row :: row' :: post) = .ok r →
      ∃ r', mergeAll M len d (pre ++ row' :: row :: post) = .ok r' ∧ Same r r' := by
  have hcompat : Compat (comps path₁) (comps path₂) := by
    by_contra h
    exact hconf (not_compat_iff.mp h)
  obtain ⟨f, rfl, hf⟩ := (procpath_eq_ok (walkable_of_procpath_eq_ok hp)).mp hp
  obtain ⟨g, rfl, hg⟩ := (procpath_eq_ok (walkable_of_procpath_eq_ok hq)).mp hq
  -- one length function for both trees
  let len : PyStr → Nat := fun k =>
    if k ∈ arrayNames (comps path₁) then t₁.counts.len k else t₂.counts.len k
  have hlen₁ : ∀ k ∈ arrayNames (comps path₁), t₁.counts.len k = len k := by
    intro k hk
    exact (if_pos hk).symm
  have hlen₂ : ∀ k ∈ arrayNames (comps path₂), t₂.counts.len k = len k := by
    intro k hk
    show _ = if k ∈ arrayNames (comps path₁) then t₁.counts.len k else t₂.counts.len k
    split
    · obtain ⟨n, hn⟩ := (rowValues_counts hf).2 k ‹_›
      obtain ⟨m, hm⟩ := (rowValues_counts hg).2 k hk
      rw [Counts.len_of_some hn, Counts.len_of_some hm, hlen k n m hn hm]
    · rfl
  rw [valueTree, valueTree, tree_congr_len _ hlen₁, tree_congr_len _ hlen₂]
  -- one direction, for either order of the two trees
  have hswap : ∀ {cs ds : List Comp} {f g : List Nat → Value} {r : Value}, Compat cs ds →
      mergeBoth M d (tree len cs f) (tree len ds g) = .ok r →
      ∃ r', mergeBoth M d (tree len ds g) (tree len cs f) = .ok r' ∧ Same r r' := by
    intro cs ds f g r h hr
    obtain ⟨d₁, hd₁, hr⟩ := Except.bind_eq_ok.mp hr
    obtain ⟨d₂, r', hd₂, hr', hsame⟩ := swaps_of_compat (o := some d) h d₁ r hd₁ hr
    exact ⟨r', Except.bind_eq_ok.mpr ⟨d₂, hd₂, hr'⟩, hsame⟩
  refine ⟨⟨?_, ?_⟩, ?_, ?_⟩
  · rintro ⟨r, hr⟩
    obtain ⟨r', hr', _⟩ := hswap hcompat hr
    exact ⟨r', hr'⟩
  · rintro ⟨r, hr⟩
    obtain ⟨r', hr', _⟩ := hswap hcompat.symm hr
    exact ⟨r', hr'⟩
  · intro r r' hr hr'
    obtain ⟨r'', hr'', hsame⟩ := hswap hcompat hr
    rw [hr'] at hr''
    cases hr''
    exact hsame
  -- two neighbours among the rows of a document
  · intro len' pre post row row' r hrow hrow' hm
    exact mergeAll_swap (by rw [hrow, hrow']; exact hcompat) hm

/-- The partial tree of the path `m().key` for one drawn element. -/
def memberTree (key : PyStr) (n : Int) : Value :=
  .dict [("m".toList, .list [.dict [(key, .atom (.int n))]])]

/-- A state in which the length of `m` is drawn. -/
def drawnState : DocState :=
  ⟨Function.update Counts.empty "m".toList (some 1), World.fresh fun _ => 0⟩

theorem procpath_memberTree {key : PyStr} (n : Int) (hwalk : Walkable ["m()".toList, key])
    (hcomps : comps ["m()".toList, key] = [⟨"m".toList, true⟩, ⟨key, false⟩]) :
    procpath ["m()".toList, key] (.ret (.int n)) drawnState =
      .ok (memberTree key n) drawnState := by
  refine (procpath_eq_ok hwalk).mpr ⟨fun _ => .int n, ?_, ?_⟩
  · rw [hcomps]
    rfl
  · rw [hcomps]
    rfl

/-- Two rows of one array raise in both orders on a document in which the array is longer than
    drawn. -/
theorem compatible_rows_commute_long_array :
    ¬ ∃ r, mergeBoth merger (.dict [("m".toList, .list [.dict [], .dict []])])
      (memberTree "b".toList 2) (memberTree "a".toList 1) = .ok r := by
  have hpath : ¬ Conflict (comps ["m()".toList, "a".toList]) (comps ["m()".toList, "b".toList]) :=
    fun h => not_compat_iff.mpr h (by decide)
  have hcomm := compatible_rows_commute (M := merger) hpath
    (procpath_memberTree 1 (by decide) (by decide)) (procpath_memberTree 2 (by decide) (by decide))
    (fun k n m hn hm => Option.some.inj (hn.symm.trans hm))
    (.dict [("m".toList, .list [.dict [], .dict []])])
  rw [← hcomm.1]
  rintro ⟨r, hr⟩
  cases hr

end MLocust.Faker
