/-
  MLocust.Faker.FieldNames

  The names of the fields in the documents, at any depth.

  The store gives dots in field names a meaning of their own.  A field name of a
  document is the stripped component of some row's path, and these have neither dots
  nor white space, unless it is a key of a dictionary that some generator returned
  (`field_names_of_model`).
-/
import MLocust.Lib.Keys
import MLocust.Faker.KeyOrder

namespace MLocust.Faker

open Lib Lib.Program DataTree PyStr

variable {M : DocMerger} {rows : List Row} {row : Row} {d doc v : Value} {s t : DocState}
  {k : PyStr}

/-- A name without dots and white space. -/
structure Plain (k : PyStr) : Prop where
  no_dot : '.' ∉ k
  no_space : ∀ c ∈ k, isSpace c = false

theorem stripName_subset (component : PyStr) : stripName component ⊆ component := by
  cases component with
  | nil => exact List.Subset.refl _
  | cons c s =>
      have hspace : (stripName (c :: s)).Sublist (c :: stripMarker s) := List.filter_sublist
      have hmarker : (c :: stripMarker s).Sublist (c :: s) := (strip_sublist s).cons_cons c
      exact (hspace.trans hmarker).subset

/-- Splitting at the dots and stripping leave a plain name. -/
theorem plain_of_mem_path (h : k ∈ row.path.map stripName) : Plain k := by
  obtain ⟨component, hcomponent, rfl⟩ := List.mem_map.mp h
  constructor
  · intro hdot
    exact not_mem_of_mem_splitOn hcomponent (stripName_subset component hdot)
  · intro c hc
    cases component with
    | nil => cases hc
    | cons first s =>
        have hkept := (List.mem_filter.mp hc).2
        simpa using hkept

theorem names_comps (path : List PyStr) : names (comps path) = path.map stripName := by
  induction path with
  | nil => rfl
  | cons component rest ih =>
      by_cases hrest : rest = []
      · subst hrest
        rfl
      · rw [comps_cons hrest, List.map_cons, ← ih]
        rfl

/-- The keys of a partial tree are the names of its path, and the keys of its values. -/
theorem keyIn_tree {len : PyStr → Nat} {cs : List Comp} {f : List Nat → Value}
    (h : KeyIn k (tree len cs f)) : k ∈ names cs ∨ ∃ is ∈ indices len cs, KeyIn k (f is) := by
  induction cs generalizing f with
  | nil => exact Or.inr ⟨[], List.mem_cons_self, h⟩
  | cons c cs ih =>
      rw [tree_cons, keyIn_singleton] at h
      rcases h with rfl | h
      · exact Or.inl List.mem_cons_self
      · by_cases hc : c.array
        · rw [branch_array hc, keyIn_list] at h
          obtain ⟨x, hx, hkx⟩ := h
          obtain ⟨i, hi, rfl⟩ := List.mem_map.mp hx
          rcases ih hkx with hname | ⟨is, his, hvalue⟩
          · exact Or.inl (List.mem_cons_of_mem _ hname)
          · exact Or.inr ⟨i :: is, (mem_indices_array hc).mpr
              ⟨i, is, List.mem_range.mp hi, his, rfl⟩, hvalue⟩
        · rw [branch_object hc] at h
          rw [indices_object hc]
          exact (ih h).imp_left (List.mem_cons_of_mem _)

/-- A generator returns a value with the key. -/
def Gen.ReturnsKey (g : Gen) (k : PyStr) : Prop :=
  ∃ w v w', g.eval w = .ok v w' ∧ KeyIn k v.val

/-- A row leads to fields of the name. -/
def Row.Names (row : Row) (k : PyStr) : Prop :=
  k ∈ row.path.map stripName ∨ row.generator.ReturnsKey k

theorem keyIn_procpath (h : procpath row.path row.generator s = .ok v t) (hk : KeyIn k v) :
    row.Names k := by
  obtain ⟨f, rfl, hvals⟩ := (procpath_eq_ok (walkable_of_procpath_eq_ok h)).mp h
  rcases keyIn_tree hk with hname | ⟨is, his, hvalue⟩
  · rw [names_comps] at hname
    exact Or.inl hname
  · obtain ⟨_, _, _, hleaves⟩ := rowValues_eq_ok.mp hvals
    obtain ⟨w, w', hw⟩ := mem_mapM_eval _ hleaves (List.mem_map_of_mem his)
    exact Or.inr ⟨w, f is, w', hw, hvalue⟩

/-- One round of the row loop adds the names of its row. -/
theorem keyIn_mergeRow (h : mergeRow M d row s = .ok doc t) (hk : KeyIn k doc) :
    KeyIn k d ∨ row.Names k := by
  obtain ⟨v, hv, hm⟩ := mergeRow_eq_ok.mp h
  exact (Merger.keyIn_merge zipmerge_isZip hm hk).imp_right (keyIn_procpath hv)

/-- The row loop adds the names of its rows. -/
theorem keyIn_rowLoop (h : rowLoop M d rows s = .ok doc t) (hk : KeyIn k doc) :
    KeyIn k d ∨ ∃ row ∈ rows, row.Names k := by
  induction rows generalizing d s with
  | nil =>
      cases h
      exact Or.inl hk
  | cons row rows ih =>
      obtain ⟨d', u, hrow, hrest⟩ := rowLoop_cons_eq_ok.mp h
      rw [List.exists_mem_cons_iff]
      rcases ih hrest with hd' | hnames
      · rcases keyIn_mergeRow hrow hd' with hd | hname
        · exact Or.inl hd
        · exact Or.inr (Or.inl hname)
      · exact Or.inr (Or.inr hnames)

theorem not_keyIn_empty : ¬ KeyIn k (.dict [] : Value) := by
  rw [keyIn_dict]
  rintro ⟨kv, hkv, _⟩
  cases hkv

/-- **Field names come from the model.**  Every field name of every document of a batch, at any
    depth, is the stripped component of some row's path, and then it has neither a dot nor white
    space; or it is a key in a value that the generator of some row returns. -/
theorem field_names_of_model (M : DocMerger) (env : Env) (model : PyStr) (n : Int)
    (rows : List Row)
    (hrows : (env.rows (templatePath env model)).mapM (readRow env) = .ok rows)
    (w w' : World) (docs : List Value) (h : bulkFetch M env model n w = .ok docs w') :
    ∀ doc ∈ docs, ∀ k, KeyIn k doc →
      (Plain k ∧ ∃ row ∈ rows, k ∈ row.path.map stripName) ∨
        ∃ row ∈ rows, row.generator.ReturnsKey k := by
  rw [bulkFetch] at h
  split at h
  · refine forall_mem_mapM (fun {u doc v} hdoc => ?_) _ h
    obtain ⟨rows', t, hread, hloop, _⟩ := fetchDoc_eq_ok.mp hdoc
    rw [hrows] at hread
    cases hread
    intro k hk
    rcases keyIn_rowLoop hloop hk with hempty | ⟨row, hrow, hpath | hvalue⟩
    · exact absurd hempty not_keyIn_empty
    · exact Or.inl ⟨plain_of_mem_path hpath, row, hrow, hpath⟩
    · exact Or.inr ⟨row, hrow, hvalue⟩
  · cases h

/-- Three documents of members. -/
theorem memberRows_field_names : ∃ docs w',
    bulkFetch merger memberEnv "member.csv".toList 3 (World.fresh fun _ => 1) = .ok docs w' ∧
      docs.length = 3 ∧ ∀ doc ∈ docs, ∀ k, KeyIn k doc →
        (Plain k ∧ ∃ row ∈ memberRows, k ∈ row.path.map stripName) ∨
          ∃ row ∈ memberRows, row.generator.ReturnsKey k := by
  obtain ⟨docs, w', hrun, hlen, _⟩ :=
    (bulkFetch_returns merger memberEnv "member.csv".toList 3 rfl rfl memberRows_tame).returns
      (roomy_fresh fun _ => 1)
  exact ⟨docs, w', hrun, hlen,
    field_names_of_model merger memberEnv "member.csv".toList 3 memberRows rfl _ w' docs hrun⟩

end MLocust.Faker
