/-
  MLocust.Locustfile.SharedSize

  What the users of a worker do to each other through `maxArraySize`.

  A directive `setArraySize` changes a variable of the process, so it is in force for
  all users.  What reaches the cluster is bounded all the same, where rows make the
  arrays and no generated value replaces them: arrays behind a directive of their own
  model by this directive, and all arrays by the largest directive of the worker
  (`worker_array_sizes`).

  If the model of a user sets the size before it uses it, or if no model of the worker
  sets it, then the others make no difference at all: all documents that the user
  hands over could have been returned by one call in a process of its own
  (`worker_user_as_alone`).
-/
import MLocust.Faker.SizeBounds
import MLocust.Locustfile.Identifiers

namespace MLocust.Locustfile

open Lib Lib.Program Lib.Shared Faker

variable {ι β : Type} {M : DocMerger} {env : Env} {model : ι → PyStr} {size : ι → Int}
  {p : World} {s : System ι World (Generated Value) (Phase Value) (Event Value)}

/-- What every call keeps of the process, and what it returns under it, holds of every batch
    that is handed over. -/
theorem handed_of_bulkFetch [DecidableEq ι] {I : World → Prop} {Q : ι → List Value → Prop}
    (hkeeps : ∀ i, Guarantees (fun w w' => I w → I w') (bulkFetch M env (model i) (size i)))
    (hreturns : ∀ i {w docs w'}, I w → bulkFetch M env (model i) (size i) w = .ok docs w' →
      Q i docs)
    (hp : I p) (h : WorkerReaches (fakerUsers M env model size) p s) (i : ι) :
    ∀ docs ∈ handed (of i s.events), Q i docs := by
  have hop : ∀ i w, I w →
      (∀ docs, ((fakerUsers M env model size i).generateOn w).1 = .ok docs → Q i docs) ∧
        I ((fakerUsers M env model size i).generateOn w).2 := by
    intro i w hw
    cases hrun : bulkFetch M env (model i) (size i) w with
    | ok docs w' =>
        rw [generateOn_of_ok rfl hrun]
        refine ⟨fun docs' hdocs => ?_, (hkeeps i).of_ok hrun hw⟩
        cases hdocs
        exact hreturns i hw hrun
    | error e w' =>
        rw [generateOn_of_error rfl hrun]
        refine ⟨fun docs' hdocs => ?_, (hkeeps i).of_error hrun hw⟩
        cases hdocs
  intro docs hdocs
  exact handed_invariant (Q := fun i r => ∀ docs, r = .ok docs → Q i docs) hop hp h i docs hdocs
    docs rfl

-- ============================================================================
-- Array sizes
-- ============================================================================

/-- **Array sizes in a worker.**  Whatever the interleaving and whatever the other users' models,
    if no row of the user's model that ends at or above an array returns a list or a
    dictionary: the array has 1 to `n` elements in every batch that is handed over, provided
    that its name is used for an array for the first time behind its own model's directive of
    `n`, with no row between the two that changes the size (`SizedArray`); and if neither the
    process at the start nor any directive of the worker goes beyond a bound, the array does
    not. -/
theorem worker_array_sizes [DecidableEq ι] (M : DocMerger) (env : Env) (model : ι → PyStr)
    (size : ι → Int) (p : World) (s : System ι World (Generated Value) (Phase Value) (Event Value))
    (h : WorkerReaches (fakerUsers M env model size) p s) (i : ι) (rows : List Row)
    (hrows : (env.rows (templatePath env (model i))).mapM (readRow env) = .ok rows)
    (ks : List PyStr) (k : PyStr) :
    (∀ n, SizedArray rows ks k n → ∀ docs ∈ handed (of i s.events), ∀ doc ∈ docs,
      ArrayWithin n (ks ++ [k]) doc) ∧
    ∀ bound, p.maxArraySize ≤ bound →
      (∀ j, RowsGuarantee (StaysWithin bound) env (env.rows (templatePath env (model j)))) →
      AtomsAbove rows (ks ++ [k]) → ∀ docs ∈ handed (of i s.events), ∀ doc ∈ docs,
        ArrayWithin bound (ks ++ [k]) doc := by
  constructor
  -- behind a directive, whatever the process was like when the call began
  · intro n hsized docs hdocs
    refine handed_of_bulkFetch (I := fun _ => True)
      (Q := fun j docs => j = i → ∀ doc ∈ docs, ArrayWithin n (ks ++ [k]) doc) ?_ ?_ trivial h i
      docs hdocs rfl
    · exact fun j => (bulkFetch_steps M env (model j) (size j)).mono fun _ _ _ _ => trivial
    · rintro j w docs w' _ hrun rfl
      exact bulkFetch_sized hrows hsized hrun
  -- within the bound, which all users keep
  · intro bound hp hbound hflat docs hdocs
    refine handed_of_bulkFetch (I := fun w => w.maxArraySize ≤ bound)
      (Q := fun j docs => j = i → ∀ doc ∈ docs, ArrayWithin bound (ks ++ [k]) doc) ?_ ?_ hp h i
      docs hdocs rfl
    · exact fun j => bulkFetch_guarantees (staysWithin_undrawn bound) (hbound j) (size j)
    · rintro j w docs w' hw hrun rfl
      exact bulkFetch_within hrows (hbound j) hflat hw hrun

/-- A model that uses the size before it sets it, beside one that sets it first. -/
def mixedEnv : Env where
  isfile := fun _ => true
  rows := fun path =>
    if path = "models/grow.csv".toList then growEnv.rows path else referenceEnv.rows path
  expr := fun text => if text = [] then .ret (.int 0) else referenceEnv.expr text

/-- One user of each. -/
def mixedModel (grow : Bool) : PyStr :=
  if grow then "grow.csv".toList else "_reference.csv".toList

theorem mixedEnv_grow : (mixedEnv.rows (templatePath mixedEnv (mixedModel true))).mapM
    (readRow mixedEnv) = .ok growRows := rfl

theorem mixedEnv_reference : (mixedEnv.rows (templatePath mixedEnv (mixedModel false))).mapM
    (readRow mixedEnv) = .ok referenceRows := rfl

theorem growRows_tame (row : Row) (hrow : row ∈ growRows) :
    row.generator.Tame ∧ pathError row.path = none := by
  rcases List.mem_cons.mp hrow with rfl | hrow
  · exact ⟨tame_ret trivial, by decide⟩
  · rw [List.mem_singleton.mp hrow]
    exact ⟨tame_setArraySize (by decide), by decide⟩

theorem referenceRows_tame (row : Row) (hrow : row ∈ referenceRows) :
    row.generator.Tame ∧ pathError row.path = none := by
  simp only [referenceRows, List.mem_cons, List.not_mem_nil, or_false] at hrow
  rcases hrow with rfl | rfl | rfl
  · exact ⟨tame_id _, by decide⟩
  · exact ⟨tame_setArraySize (by decide), by decide⟩
  · exact ⟨tame_random fun d => tame_ret trivial, by decide⟩

/-- The batch of the model that sets the size first is generated while the other one is being
    inserted. -/
theorem exists_mixed : ∃ s, WorkerReaches (fakerUsers merger mixedEnv mixedModel fun _ => 2)
    (World.fresh fun _ => 6) s ∧ (handed (of true s.events)).flatten.length = 2 ∧
      (handed (of false s.events)).flatten.length = 2 := by
  obtain ⟨docs, w, hrun, ⟨hlen, hw⟩⟩ :=
    (bulkFetch_returns merger mixedEnv (mixedModel true) 2 rfl mixedEnv_grow growRows_tame).returns
      (roomy_fresh fun _ => 6)
  obtain ⟨docs', w', hrun', ⟨hlen', _⟩⟩ :=
    (bulkFetch_returns merger mixedEnv (mixedModel false) 2 rfl mixedEnv_reference
      referenceRows_tame).returns hw
  refine ⟨_, .head (.of_op (i := true) (generateOn_of_ok rfl hrun) (.generated 0 docs)) <|
    .head (.of_op (i := false) (generateOn_of_ok rfl hrun') (.generated 1 docs')) <|
    .head (.own (i := true) (.inserted 0 2 docs)) <|
    .single (.own (i := false) (.inserted 1 3 docs')), ?_, ?_⟩
  · show (docs ++ []).length = 2
    rw [List.append_nil, hlen]
    rfl
  · show (docs' ++ []).length = 2
    rw [List.append_nil, hlen']
    rfl

theorem mixedEnv_staysWithin (grow : Bool) : RowsGuarantee (StaysWithin 10) mixedEnv
    (mixedEnv.rows (templatePath mixedEnv (mixedModel grow))) := by
  cases grow with
  | true =>
      have hrows : ∀ row ∈ growRows, Guarantees (StaysWithin 10) row.generator.eval := by
        refine List.forall_mem_cons.mpr ⟨fun _ hw => hw, List.forall_mem_singleton.mpr ?_⟩
        exact fun _ _ => Int.le_refl 10
      exact (forall_readRow mixedEnv_grow).mpr hrows
  | false =>
      have hrows : ∀ row ∈ referenceRows, Guarantees (StaysWithin 10) row.generator.eval := by
        refine List.forall_mem_cons.mpr ⟨fun _ hw => hw, List.forall_mem_cons.mpr ⟨?_, ?_⟩⟩
        · exact fun _ _ => Int.le_refl 10
        · exact List.forall_mem_singleton.mpr fun _ hw => hw
      exact (forall_readRow mixedEnv_reference).mpr hrows

theorem referenceRows_sized :
    SizedArray referenceRows [] "arrayUsingCurrArraySize".toList 10 := by
  refine ⟨[_], _, [], _, [], rfl, rfl, List.forall_mem_nil _, by decide, by decide, ?_⟩
  exact fun row hrow _ => (referenceRows_tame row hrow).1.atoms

/-- The arrays of both models have at most 10 elements. -/
theorem mixed_array_sizes : ∃ s, WorkerReaches (fakerUsers merger mixedEnv mixedModel fun _ => 2)
      (World.fresh fun _ => 6) s ∧ (handed (of true s.events)).flatten.length = 2 ∧
      (handed (of false s.events)).flatten.length = 2 ∧
    (∀ docs ∈ handed (of false s.events), ∀ doc ∈ docs,
      ArrayWithin 10 ["arrayUsingCurrArraySize".toList] doc) ∧
    ∀ docs ∈ handed (of true s.events), ∀ doc ∈ docs, ArrayWithin 10 ["a".toList] doc := by
  obtain ⟨s, h, hlen, hlen'⟩ := exists_mixed
  refine ⟨s, h, hlen, hlen', ?_, ?_⟩
  · exact (worker_array_sizes merger mixedEnv mixedModel _ _ s h false referenceRows
      mixedEnv_reference [] "arrayUsingCurrArraySize".toList).1 10 referenceRows_sized
  · refine (worker_array_sizes merger mixedEnv mixedModel _ _ s h true growRows mixedEnv_grow
      [] "a".toList).2 10 (by decide) mixedEnv_staysWithin ?_
    exact fun row hrow _ => (growRows_tame row hrow).1.atoms

-- ============================================================================
-- A user as if alone
-- ============================================================================

/-- The documents of a call are a chain of documents. -/
theorem chain_of_bulkFetch {f : Atom → β} {model : PyStr} {n : Int} {w w' : World}
    {docs : List Value} (h : bulkFetch M env model n w = .ok docs w') :
    Chain (docRun f M env (env.rows (templatePath env model))) w.maxArraySize
      (docs.map (DataTree.map f)) := by
  rw [bulkFetch] at h
  split at h
  · exact chain_of_mapM _ h
  · cases h

/-- The size does not matter to the documents of the user: its model sets the size before it
    uses it, or no model of the worker sets it. -/
def SizeSettled (f : Atom → β) (env : Env) (model : ι → PyStr) (i : ι) : Prop :=
  (∃ rows, (env.rows (templatePath env (model i))).mapM (readRow env) = .ok rows ∧
    SetsSizeFirst f rows) ∨
  ∀ j, RowsGuarantee SameSize env (env.rows (templatePath env (model j)))

/-- The documents of such a user come out alike for all sizes that occur in the worker. -/
theorem SizeSettled.exists_even {f : Atom → β} {i : ι} (h : SizeSettled f env model i)
    (hblind : BlindRows f env (env.rows (templatePath env (model i)))) (p : World) :
    ∃ S : Set Int, Lib.Even (docRun f M env (env.rows (templatePath env (model i)))) S ∧
      p.maxArraySize ∈ S ∧ ∀ j n, Guarantees
        (fun w w' => w.maxArraySize ∈ S → w'.maxArraySize ∈ S) (bulkFetch M env (model j) n) := by
  rcases h with ⟨rows, hrows, hset⟩ | hsame
  · refine ⟨Set.univ, even_of_setsSizeFirst hblind hrows hset, trivial, fun j n => ?_⟩
    exact (bulkFetch_steps M env (model j) n).mono fun _ _ _ _ => trivial
  · refine ⟨{p.maxArraySize}, even_singleton ?_, rfl, fun j n => ?_⟩
    · rintro d m' ⟨w, doc, w', hw, hdoc, _, rfl⟩
      rw [← hw]
      exact (fetchDoc_guarantees sameSize_undrawn (hsame i)).of_ok hdoc
    · refine (bulkFetch_guarantees sameSize_undrawn (hsame j) n).mono fun w w' hww hw => ?_
      rw [hww]
      exact hw

/-- **A user as if alone.**  If the size does not matter to the documents of a user, then the
    other users do not either: whatever the interleaving, all documents that the user hands over
    are, up to what `f` disregards, documents that a single call of `bulkFetch` could have
    returned in the process as it was at the start. -/
theorem worker_user_as_alone [DecidableEq ι] (f : Atom → β) (M : DocMerger) (env : Env)
    (model : ι → PyStr) (size : ι → Int) (p : World)
    (s : System ι World (Generated Value) (Phase Value) (Event Value))
    (h : WorkerReaches (fakerUsers M env model size) p s) (i : ι)
    (hfile : env.isfile (templatePath env (model i)))
    (hblind : BlindRows f env (env.rows (templatePath env (model i))))
    (hsettled : SizeSettled f env model i) :
    (handed (of i s.events)).flatten.map (DataTree.map f) ∈
      possible f M env (model i) (handed (of i s.events)).flatten.length p := by
  obtain ⟨S, heven, hp, hkeeps⟩ := hsettled.exists_even (M := M) hblind p
  -- each batch is a chain of documents from some size that may be in force
  have hparts : ∀ docs ∈ handed (of i s.events), ∃ m ∈ S,
      Chain (docRun f M env (env.rows (templatePath env (model i)))) m
        (docs.map (DataTree.map f)) := by
    intro docs hdocs
    refine handed_of_bulkFetch (I := fun w => w.maxArraySize ∈ S)
      (Q := fun j docs => j = i → ∃ m ∈ S, Chain (docRun f M env _) m (docs.map (DataTree.map f)))
      (fun j => hkeeps j (size j)) ?_ hp h i docs hdocs rfl
    rintro j w docs w' hw hrun rfl
    exact ⟨w.maxArraySize, hw, chain_of_bulkFetch hrun⟩
  rw [mem_possible_iff hblind hfile, List.length_map, Int.toNat_natCast, List.map_flatten]
  refine ⟨heven.chain_flatten hp fun part hpart => ?_, rfl⟩
  obtain ⟨docs, hdocs, rfl⟩ := List.mem_map.mp hpart
  exact hparts docs hdocs

/-- The user of the reference model, beside one whose model uses the size before it sets it. -/
theorem mixed_user_as_alone : ∃ s, WorkerReaches (fakerUsers merger mixedEnv mixedModel fun _ => 2)
      (World.fresh fun _ => 6) s ∧ (handed (of false s.events)).flatten.length = 2 ∧
    (handed (of false s.events)).flatten.map (DataTree.map withoutNumber) ∈
      possible withoutNumber merger mixedEnv (mixedModel false)
        (handed (of false s.events)).flatten.length (World.fresh fun _ => 6) := by
  obtain ⟨s, h, _, hlen⟩ := exists_mixed
  exact ⟨s, h, hlen, worker_user_as_alone withoutNumber merger mixedEnv mixedModel _ _ s h false
    rfl (blindRows_of_rows mixedEnv_reference referenceRows_blind)
    (Or.inl ⟨referenceRows, mixedEnv_reference, referenceRows_setSizeFirst⟩)⟩

end MLocust.Locustfile
