/-
  MLocust.Faker.TreePaths

  The concrete paths of partial trees, and how two partial trees lie over each
  other when one is merged into the other.

  Two compatible paths part ways at a dictionary, so each tree is kept beside the
  other (`probe_or_kept_of_compat`).  The converse also holds, unless the two trees
  meet at a leaf of one of them (`compat_or_meet_of_kept`): there the outcome
  depends on the generated values.
-/
import MLocust.Lib.Overlay
import MLocust.Faker.DocRun

namespace MLocust.Faker

open Lib DataTree PyStr

variable {len : PyStr → Nat} {c d : Comp} {cs ds : List Comp} {f g : List Nat → Value}
  {s : Step PyStr} {p q : List (Step PyStr)} {x : Node Atom}

-- ============================================================================
-- One step into a partial tree
-- ============================================================================

theorem get?_tree_name : (tree len (c :: cs) f).get? [.key c.name] = some (branch len c cs f) := by
  rw [tree_cons, get?_key_singleton, Dict.lookup_cons, if_pos rfl]

theorem get?_tree_ne {k : PyStr} (h : k ≠ c.name) :
    (tree len (c :: cs) f).get? [.key k] = none := by
  rw [tree_cons, get?_key_singleton, Dict.lookup_cons, if_neg h]
  rfl

theorem get?_branch_array (hc : c.array) {i : Nat} (hi : i < len c.name) :
    (branch len c cs f).get? [.idx i] = some (tree len cs fun is => f (i :: is)) := by
  rw [branch_array hc, get?_idx_singleton, List.getElem?_map, List.getElem?_range hi]
  rfl

/-- A path into a partial tree starts with its key. -/
theorem probe_tree_cons_eq_some :
    (tree len (c :: cs) f).probe (s :: q) = some x ↔
      s = .key c.name ∧ (branch len c cs f).probe q = some x := by
  rw [probe_cons]
  cases s with
  | idx i => simp [tree_cons]
  | key k =>
      by_cases hk : k = c.name
      · subst hk
        rw [get?_tree_name]
        simp
      · rw [get?_tree_ne hk]
        simp [hk]

/-- A path into an array starts with one of its indices. -/
theorem probe_branch_cons_eq_some (hc : c.array) :
    (branch len c cs f).probe (s :: q) = some x ↔ ∃ i, s = .idx i ∧ i < len c.name ∧
      (tree len cs fun is => f (i :: is)).probe q = some x := by
  rw [probe_cons]
  cases s with
  | key k => simp [branch_array hc]
  | idx i =>
      by_cases hi : i < len c.name
      · rw [get?_branch_array hc hi]
        simp [hi]
      · rw [branch_array hc, get?_idx_singleton, List.getElem?_eq_none (by simpa using hi)]
        simp [hi]

theorem wf_tree (h : ∀ is, (f is).WF) : (tree len cs f).WF := by
  induction cs generalizing f with
  | nil => exact h []
  | cons c cs ih =>
      have hbranch : (branch len c cs f).WF := by
        by_cases hc : c.array
        · rw [branch_array hc]
          refine .list fun x hx => ?_
          obtain ⟨i, _, rfl⟩ := List.mem_map.mp hx
          exact ih fun is => h (i :: is)
        · rw [branch_object hc]
          exact ih h
      rw [tree_cons]
      refine .dict (by simp) fun kv hkv => ?_
      rw [List.mem_singleton.mp hkv]
      exact hbranch

theorem Filled.wf_tree (r : Filled) : (r.tree len).WF :=
  Faker.wf_tree fun is => (r.value is).property

-- ============================================================================
-- Leaves
-- ============================================================================

/-- A leaf of the path sits at the concrete path `p`. -/
def IsPlace (len : PyStr → Nat) (cs : List Comp) (p : List (Step PyStr)) : Prop :=
  ∃ is ∈ indices len cs, p = place cs is

theorem isPlace_nil : IsPlace len [] [] := ⟨[], List.mem_cons_self, rfl⟩

theorem isPlace_array (hc : c.array) :
    IsPlace len (c :: cs) p ↔
      ∃ i p', i < len c.name ∧ IsPlace len cs p' ∧ p = .key c.name :: .idx i :: p' := by
  constructor
  · rintro ⟨is, his, rfl⟩
    obtain ⟨i, js, hi, hjs, rfl⟩ := (mem_indices_array hc).mp his
    exact ⟨i, place cs js, hi, ⟨js, hjs, rfl⟩, place_array hc cs i js⟩
  · rintro ⟨i, p', hi, ⟨js, hjs, rfl⟩, rfl⟩
    exact ⟨i :: js, (mem_indices_array hc).mpr ⟨i, js, hi, hjs, rfl⟩, (place_array hc cs i js).symm⟩

theorem isPlace_object (hc : ¬ c.array) :
    IsPlace len (c :: cs) p ↔ ∃ p', IsPlace len cs p' ∧ p = .key c.name :: p' := by
  constructor
  · rintro ⟨is, his, rfl⟩
    rw [indices_object hc] at his
    exact ⟨place cs is, ⟨is, his, rfl⟩, place_object hc cs is⟩
  · rintro ⟨p', ⟨is, his, rfl⟩, rfl⟩
    exact ⟨is, by rwa [indices_object hc], (place_object hc cs is).symm⟩

/-- Every leaf holds its value. -/
theorem get?_place {is : List Nat} (h : is ∈ indices len cs) :
    (tree len cs f).get? (place cs is) = some (f is) := by
  induction cs generalizing is f with
  | nil =>
      rw [indices, List.mem_singleton] at h
      subst h
      rfl
  | cons c cs ih =>
      by_cases hc : c.array
      · obtain ⟨i, js, hi, hjs, rfl⟩ := (mem_indices_array hc).mp h
        rw [place_array hc, get?_cons, get?_tree_name, Option.bind_some, get?_cons,
          get?_branch_array hc hi]
        exact ih hjs
      · rw [indices_object hc] at h
        rw [place_object hc, get?_cons, get?_tree_name, Option.bind_some, branch_object hc]
        exact ih h

/-- Every path into a partial tree leads towards a leaf or beyond one. -/
theorem place_of_probe (hlen : ∀ k ∈ arrayNames cs, 0 < len k)
    (h : (tree len cs f).probe q = some x) :
    ∃ p, IsPlace len cs p ∧ (q <+: p ∨ p <+: q) := by
  induction cs generalizing q f x with
  | nil => exact ⟨[], isPlace_nil, Or.inr List.nil_prefix⟩
  | cons c cs ih =>
      by_cases hc : c.array
      · rw [arrayNames_array hc] at hlen
        have hpos := hlen c.name List.mem_cons_self
        have hrest : ∀ k ∈ arrayNames cs, 0 < len k :=
          fun k hk => hlen k (List.mem_cons_of_mem _ hk)
        -- a path that stops before the index leads towards the first element
        have hfirst : ∃ p, IsPlace len (c :: cs) p ∧ [.key c.name] <+: p := by
          obtain ⟨p, hp, _⟩ := ih (f := fun is => f (0 :: is)) (q := []) hrest
            (x := (tree len cs fun is => f (0 :: is)).node) (probe_nil _)
          exact ⟨_, (isPlace_array hc).mpr ⟨0, p, hpos, hp, rfl⟩, by simp⟩
        cases q with
        | nil =>
            obtain ⟨p, hp, _⟩ := hfirst
            exact ⟨p, hp, Or.inl List.nil_prefix⟩
        | cons s q =>
            obtain ⟨rfl, hq⟩ := probe_tree_cons_eq_some.mp h
            cases q with
            | nil =>
                obtain ⟨p, hp, hpre⟩ := hfirst
                exact ⟨p, hp, Or.inl hpre⟩
            | cons s q =>
                obtain ⟨i, rfl, hi, hq⟩ := (probe_branch_cons_eq_some hc).mp hq
                obtain ⟨p, hp, hpq⟩ := ih hrest hq
                refine ⟨_, (isPlace_array hc).mpr ⟨i, p, hi, hp, rfl⟩, ?_⟩
                simpa only [List.cons_prefix_cons, true_and] using hpq
      -- an object adds its key to the place that the rest of the path has
      · rw [arrayNames_object hc] at hlen
        cases q with
        | nil =>
            obtain ⟨p, hp, _⟩ :=
              ih (f := f) (q := []) hlen (x := (tree len cs f).node) (probe_nil _)
            exact ⟨_, (isPlace_object hc).mpr ⟨p, hp, rfl⟩, Or.inl List.nil_prefix⟩
        | cons s q =>
            obtain ⟨rfl, hq⟩ := probe_tree_cons_eq_some.mp h
            rw [branch_object hc] at hq
            obtain ⟨p, hp, hpq⟩ := ih hlen hq
            refine ⟨_, (isPlace_object hc).mpr ⟨p, hp, rfl⟩, ?_⟩
            simpa only [List.cons_prefix_cons, true_and] using hpq

/-- A path whose arrays are not empty has a leaf. -/
theorem exists_mem_indices (hlen : ∀ k ∈ arrayNames cs, 0 < len k) :
    ∃ is, is ∈ indices len cs := by
  obtain ⟨_, ⟨is, his, _⟩, _⟩ :=
    place_of_probe (f := fun _ => .dict []) (q := []) hlen (probe_nil _)
  exact ⟨is, his⟩

-- ============================================================================
-- Two partial trees over each other
-- ============================================================================

theorem kept_tree_name (h : d.name = c.name) :
    Kept (.key c.name :: q) (tree len (c :: cs) f) (tree len (d :: ds) g) ↔
      Kept q (branch len c cs f) (branch len d ds g) :=
  kept_cons_of_some get?_tree_name (h ▸ get?_tree_name)

theorem kept_branch_idx (hc : c.array) (hd : d.array) (h : d.name = c.name) {i : Nat}
    (hi : i < len c.name) :
    Kept (.idx i :: q) (branch len c cs f) (branch len d ds g) ↔
      Kept q (tree len cs fun is => f (i :: is)) (tree len ds fun is => g (i :: is)) :=
  kept_cons_of_some (get?_branch_array hc hi) (get?_branch_array hd (h ▸ hi))

/-- Of two compatible paths, the tree of one is in the other's or is kept beside it. -/
theorem probe_or_kept_of_compat (h : Compat cs ds) (hx : (tree len cs f).probe q = some x) :
    (tree len ds g).probe q = some x ∨ Kept q (tree len cs f) (tree len ds g) := by
  induction cs generalizing ds f g q with
  | nil => exact h.elim
  | cons c cs ih =>
      cases ds with
      | nil => exact h.elim
      | cons d ds =>
          cases q with
          -- both hold a dictionary at the root
          | nil => exact Or.inl hx
          | cons s q =>
              obtain ⟨rfl, hb⟩ := probe_tree_cons_eq_some.mp hx
              by_cases hname : d.name = c.name
              · rw [kept_tree_name hname]
                obtain ⟨harr, hcompat⟩ := h.resolve_left (fun hne => hne hname.symm)
                rw [← hname, probe_tree_cons_eq_some, hname]
                by_cases hc : c.array
                · have hd : d.array := harr ▸ hc
                  cases q with
                  -- the list under the common name has the same length in both
                  | nil =>
                      left
                      rw [branch_array hc] at hb
                      rw [branch_array hd, hname]
                      refine ⟨rfl, ?_⟩
                      rw [← hb]
                      simp [node]
                  | cons s q =>
                      obtain ⟨i, rfl, hi, ht⟩ := (probe_branch_cons_eq_some hc).mp hb
                      rw [kept_branch_idx hc hd hname hi, probe_branch_cons_eq_some hd]
                      rcases ih hcompat ht with hy | hk
                      · exact Or.inl ⟨rfl, i, rfl, hname ▸ hi, hy⟩
                      · exact Or.inr hk
                · have hd : ¬ d.array := fun hd => hc (harr ▸ hd)
                  rw [branch_object hc] at hb ⊢
                  rw [branch_object hd]
                  rcases ih hcompat hb with hy | hk
                  · exact Or.inl ⟨rfl, hy⟩
                  · exact Or.inr hk
              -- the second tree parts from the path at its first key
              · right
                exact (kept_cons_of_none (get?_tree_ne (Ne.symm hname))).mpr trivial

/-- On the way to `q` the two trees meet at a leaf of one of them. -/
def Meet (len : PyStr → Nat) (cs ds : List Comp) (f g : List Nat → Value)
    (q : List (Step PyStr)) : Prop :=
  ∃ p q' u v, q = p ++ q' ∧ (IsPlace len cs p ∨ IsPlace len ds p) ∧
    (tree len cs f).get? p = some u ∧ (tree len ds g).get? p = some v

theorem Meet.of_nil_left : Meet len [] ds f g q :=
  ⟨[], q, _, _, rfl, Or.inl isPlace_nil, get?_nil _, get?_nil _⟩

theorem Meet.of_nil_right : Meet len cs [] f g q :=
  ⟨[], q, _, _, rfl, Or.inr isPlace_nil, get?_nil _, get?_nil _⟩

theorem Meet.array (hc : c.array) (hd : d.array) (hname : d.name = c.name) {i : Nat}
    (hi : i < len c.name)
    (h : Meet len cs ds (fun is => f (i :: is)) (fun is => g (i :: is)) q) :
    Meet len (c :: cs) (d :: ds) f g (.key c.name :: .idx i :: q) := by
  obtain ⟨p, q', u, v, rfl, hplace, hu, hv⟩ := h
  refine ⟨.key c.name :: .idx i :: p, q', u, v, rfl, ?_, ?_, ?_⟩
  · rcases hplace with hp | hp
    · exact Or.inl ((isPlace_array hc).mpr ⟨i, p, hi, hp, rfl⟩)
    · exact Or.inr ((isPlace_array hd).mpr ⟨i, p, hname ▸ hi, hp, by rw [hname]⟩)
  · rw [get?_cons, get?_tree_name, Option.bind_some, get?_cons, get?_branch_array hc hi]
    exact hu
  · rw [← hname, get?_cons, get?_tree_name, Option.bind_some, get?_cons,
      get?_branch_array hd (hname ▸ hi)]
    exact hv

theorem Meet.object (hc : ¬ c.array) (hd : ¬ d.array) (hname : d.name = c.name)
    (h : Meet len cs ds f g q) : Meet len (c :: cs) (d :: ds) f g (.key c.name :: q) := by
  obtain ⟨p, q', u, v, rfl, hplace, hu, hv⟩ := h
  refine ⟨.key c.name :: p, q', u, v, rfl, ?_, ?_, ?_⟩
  · rcases hplace with hp | hp
    · exact Or.inl ((isPlace_object hc).mpr ⟨p, hp, rfl⟩)
    · exact Or.inr ((isPlace_object hd).mpr ⟨p, hp, by rw [hname]⟩)
  · rw [get?_cons, get?_tree_name, Option.bind_some, branch_object hc]
    exact hu
  · rw [← hname, get?_cons, get?_tree_name, Option.bind_some, branch_object hd]
    exact hv

/-- With different marks on a name, one of the two trees has a leaf under it or the two
    hold containers of different kinds. -/
theorem meet_or_differ (hname : d.name = c.name) (harr : c.array ≠ d.array) :
    Meet len (c :: cs) (d :: ds) f g (.key c.name :: q) ∨
      ¬ SameContainer (branch len c cs f) (branch len d ds g) := by
  have hu : (tree len (c :: cs) f).get? [.key c.name] = some (branch len c cs f) := get?_tree_name
  have hv : (tree len (d :: ds) g).get? [.key c.name] = some (branch len d ds g) :=
    hname ▸ get?_tree_name
  by_cases hc : c.array
  · have hd : ¬ d.array := fun hd => harr (hc.trans hd.symm)
    cases ds with
    -- the second path ends here, so its leaf meets the list
    | nil =>
        refine Or.inl ⟨[.key c.name], q, _, _, rfl, Or.inr ?_, hu, hv⟩
        exact (isPlace_object hd).mpr ⟨[], isPlace_nil, by rw [hname]⟩
    | cons d' ds =>
        -- a list and a dictionary
        right
        rw [branch_array hc, branch_object hd, tree_cons]
        exact id
  · have hd : d.array := by
      cases hdv : d.array with
      | true => rfl
      | false => exact absurd (by rw [hdv]; exact Bool.eq_false_iff.mpr hc) harr
    cases cs with
    -- the first path ends here, so its leaf meets the list
    | nil =>
        refine Or.inl ⟨[.key c.name], q, _, _, rfl, Or.inl ?_, hu, hv⟩
        exact (isPlace_object hc).mpr ⟨[], isPlace_nil, rfl⟩
    | cons c' cs =>
        right
        rw [branch_array hd, branch_object hc, tree_cons]
        exact id

/-- What is kept of a partial tree belongs to a compatible path, or lies below a leaf that
    the two trees have in common. -/
theorem compat_or_meet_of_kept (hk : Kept q (tree len cs f) (tree len ds g))
    (hx : (tree len cs f).probe q = some x) : Compat cs ds ∨ Meet len cs ds f g q := by
  induction cs generalizing ds f g q with
  | nil => exact Or.inr .of_nil_left
  | cons c cs ih =>
      cases ds with
      | nil => exact Or.inr .of_nil_right
      | cons d ds =>
          cases q with
          | nil => exact absurd hk not_kept_nil
          | cons s q =>
              obtain ⟨rfl, hb⟩ := probe_tree_cons_eq_some.mp hx
              by_cases hname : d.name = c.name
              · rw [kept_tree_name hname] at hk
                by_cases harr : c.array = d.array
                · by_cases hc : c.array
                  · have hd : d.array := harr ▸ hc
                    cases q with
                    -- at the list under the common name the path is still in both trees
                    | nil => exact absurd hk not_kept_nil
                    | cons s q =>
                        obtain ⟨i, rfl, hi, ht⟩ := (probe_branch_cons_eq_some hc).mp hb
                        rw [kept_branch_idx hc hd hname hi] at hk
                        rcases ih hk ht with hcompat | hmeet
                        · exact Or.inl (Or.inr ⟨harr, hcompat⟩)
                        · exact Or.inr (hmeet.array hc hd hname hi)
                  · have hd : ¬ d.array := fun hd => hc (harr ▸ hd)
                    rw [branch_object hc] at hb hk
                    rw [branch_object hd] at hk
                    rcases ih hk hb with hcompat | hmeet
                    · exact Or.inl (Or.inr ⟨harr, hcompat⟩)
                    · exact Or.inr (hmeet.object hc hd hname)
                -- one is an array and the other is not
                · rcases meet_or_differ (q := q) hname harr with hmeet | hdiffer
                  · exact Or.inr hmeet
                  · exact absurd hk (not_kept_of_not_sameContainer hdiffer)
              -- different names are compatible
              · exact Or.inl (Or.inl (Ne.symm hname))

/-- Lists of two partial trees at one path have the same length, unless they lie at or
    below a leaf that the two trees have in common. -/
theorem length_eq_or_meet {i j : Nat} (hi : (tree len cs f).probe q = some (.list i))
    (hj : (tree len ds g).probe q = some (.list j)) : i = j ∨ Meet len cs ds f g q := by
  induction cs generalizing ds f g q with
  | nil => exact Or.inr .of_nil_left
  | cons c cs ih =>
      cases ds with
      | nil => exact Or.inr .of_nil_right
      | cons d ds =>
          cases q with
          -- at the root there is a dictionary
          | nil => cases hi
          | cons s q =>
              obtain ⟨rfl, hbi⟩ := probe_tree_cons_eq_some.mp hi
              obtain ⟨hkey, hbj⟩ := probe_tree_cons_eq_some.mp hj
              have hname : d.name = c.name := by
                injection hkey with hkey
                exact hkey.symm
              by_cases harr : c.array = d.array
              · by_cases hc : c.array
                · have hd : d.array := harr ▸ hc
                  cases q with
                  -- at the list under the common name: both have the length drawn for it
                  | nil =>
                      rw [branch_array hc, probe_nil, node, Option.some.injEq] at hbi
                      rw [branch_array hd, probe_nil, node, Option.some.injEq] at hbj
                      injection hbi with hleni
                      injection hbj with hlenj
                      left
                      rw [← hleni, ← hlenj, List.length_map, List.length_map, hname]
                  -- further down, below one element
                  | cons s q =>
                      obtain ⟨n, rfl, hn, hti⟩ := (probe_branch_cons_eq_some hc).mp hbi
                      obtain ⟨m, hm, _, htj⟩ := (probe_branch_cons_eq_some hd).mp hbj
                      cases hm
                      rcases ih hti htj with heq | hmeet
                      · exact Or.inl heq
                      · exact Or.inr (hmeet.array hc hd hname hn)
                · have hd : ¬ d.array := fun hd => hc (harr ▸ hd)
                  rw [branch_object hc] at hbi
                  rw [branch_object hd] at hbj
                  rcases ih hbi hbj with heq | hmeet
                  · exact Or.inl heq
                  · exact Or.inr (hmeet.object hc hd hname)
              -- one is an array and the other is not
              · rcases meet_or_differ (q := q) hname harr with hmeet | hdiffer
                · exact Or.inr hmeet
                · -- two trees that both reach the path hold containers of one kind
                  cases q with
                  | nil =>
                      rw [probe_nil, Option.some.injEq] at hbi hbj
                      exact absurd (sameContainer_of_node_list hbi hbj) hdiffer
                  | cons s q =>
                      rw [probe_cons] at hbi hbj
                      obtain ⟨u, hu, _⟩ := Option.bind_eq_some_iff.mp hbi
                      obtain ⟨v, hv, _⟩ := Option.bind_eq_some_iff.mp hbj
                      exact absurd (sameContainer_of_get? hu hv) hdiffer

/-- Trees of compatible paths do not meet at a leaf. -/
theorem not_meet_of_compat (h : Compat cs ds) : ¬ Meet len cs ds f g q := by
  rintro ⟨p, q', u, v, rfl, hplace, hu, hv⟩
  induction cs generalizing ds f g p with
  | nil => exact h
  | cons c cs ih =>
      cases ds with
      | nil => exact h
      | cons d ds =>
          cases p with
          -- the place of a leaf is not the root
          | nil =>
              rcases hplace with ⟨is, _, hp⟩ | ⟨is, _, hp⟩
              · cases hp
              · cases hp
          | cons s p =>
              -- both trees hold something under the same name, so both components are
              -- arrays or neither is, and the rests of the paths are compatible
              obtain ⟨rfl, hb⟩ := probe_tree_cons_eq_some.mp (probe_of_get? hu)
              obtain ⟨hkey, hp'⟩ := probe_tree_cons_eq_some.mp (probe_of_get? hv)
              have hname : d.name = c.name := by
                injection hkey with hkey
                exact hkey.symm
              obtain ⟨harr, hcompat⟩ := h.resolve_left (fun hne => hne hname.symm)
              rw [get?_cons, get?_tree_name, Option.bind_some] at hu
              rw [← hname, get?_cons, get?_tree_name, Option.bind_some] at hv
              by_cases hc : c.array
              · have hd : d.array := harr ▸ hc
                cases p with
                -- a place does not stop at the list itself
                | nil =>
                    rcases hplace with hp | hp
                    · obtain ⟨i, p, _, _, heq⟩ := (isPlace_array hc).mp hp
                      cases heq
                    · obtain ⟨i, p, _, _, heq⟩ := (isPlace_array hd).mp hp
                      rw [hname] at heq
                      cases heq
                | cons s p =>
                    -- below one element, by induction
                    obtain ⟨i, rfl, hi, _⟩ := (probe_branch_cons_eq_some hc).mp hb
                    rw [get?_cons, get?_branch_array hc hi, Option.bind_some] at hu
                    rw [get?_cons, get?_branch_array hd (hname ▸ hi), Option.bind_some] at hv
                    refine ih hcompat p ?_ hu hv
                    rcases hplace with hp | hp
                    · obtain ⟨j, p', _, hplace, heq⟩ := (isPlace_array hc).mp hp
                      cases heq
                      exact Or.inl hplace
                    · obtain ⟨j, p', _, hplace, heq⟩ := (isPlace_array hd).mp hp
                      rw [hname] at heq
                      cases heq
                      exact Or.inr hplace
              -- below the object, by induction
              · have hd : ¬ d.array := fun hd => hc (harr ▸ hd)
                rw [branch_object hc] at hu
                rw [branch_object hd] at hv
                refine ih hcompat p ?_ hu hv
                rcases hplace with hp | hp
                · obtain ⟨p', hplace, heq⟩ := (isPlace_object hc).mp hp
                  cases heq
                  exact Or.inl hplace
                · obtain ⟨p', hplace, heq⟩ := (isPlace_object hd).mp hp
                  rw [hname] at heq
                  cases heq
                  exact Or.inr hplace

end MLocust.Faker
