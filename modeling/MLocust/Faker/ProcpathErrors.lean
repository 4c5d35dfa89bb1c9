/-
  MLocust.Faker.ProcpathErrors

  When `procpath` raises.

  A path that is not walkable raises whatever the generator does: an empty
  component has no first character, and an array component that starts with a
  parenthesis is looked up under a name its own recursion does not produce.  On a
  walkable path only the evaluated generator can raise, or a draw while
  `maxArraySize` is below 1 (`Outside`).  So if the generator returns and leaves
  `maxArraySize` at 1 or more, `procpath` raises exactly on the malformed paths, and on
  all others it returns a dictionary whose single key is the name of the first
  component (`procpath_raises_iff`).
-/
import MLocust.Lib.Ending
import MLocust.Faker.RowRun

namespace MLocust.Faker

open Lib Lib.Program PyStr

-- ============================================================================
-- Paths that cannot be walked
-- ============================================================================

theorem getItem_eq_ok {tree v : Value} {k : PyStr} (h : getItem tree k = .ok v) :
    ∃ items, tree = .dict items ∧ items.lookup k = some v := by
  cases tree with
  | atom a => cases h
  | list xs => cases h
  | dict items =>
      refine ⟨items, rfl, ?_⟩
      show items.lookup k = some v
      cases hk : items.lookup k with
      | none =>
          have hnone : getItem (.dict items) k = .error .keyError := by simp [getItem, hk]
          rw [hnone] at h
          cases h
      | some w =>
          have hsome : getItem (.dict items) k = .ok w := by simp [getItem, hk]
          rw [hsome] at h
          cases h
          rfl

/-- A loop over a positive number of indices runs its body at least once. -/
theorem mapM_range_eq_ok {σ α : Type} {x : Py σ α} {n : ℕ+} {s t : σ} {as : List α}
    (h : ((List.range n).mapM fun _ => x) s = .ok as t) : ∃ a u, x s = .ok a u := by
  rw [show (n : Nat) = (n.natPred + 1) from n.natPred_add_one.symm, List.range_succ_eq_map,
    List.mapM_cons] at h
  obtain ⟨a, u, ha, _⟩ := bind_eq_ok.mp h
  exact ⟨a, u, ha⟩

/-- What an object component passes on: the rest of the path was walked. -/
theorem procpath_object_eq_ok {component : PyStr} {rest : List PyStr} {g : Gen}
    {s t : DocState} {v : Value} (hne : component ≠ []) (hrest : rest ≠ [])
    (hmark : ¬ endsWithMarker component) (h : procpath (component :: rest) g s = .ok v t) :
    ∃ w, procpath rest g s = .ok w t ∧ v = .dict [(stripName component, w)] := by
  rw [procpath_object hne hrest hmark] at h
  obtain ⟨w, u, hw, hv⟩ := bind_eq_ok.mp h
  cases hv
  exact ⟨w, hw, rfl⟩

/-- `procpath` returns on walkable paths only. -/
theorem walkable_of_procpath_eq_ok {path : List PyStr} {g : Gen} {s t : DocState} {v : Value}
    (h : procpath path g s = .ok v t) : Walkable path := by
  induction path generalizing s t v with
  | nil =>
      rw [procpath_nil] at h
      cases h
  | cons component rest ih =>
      by_cases hne : component = []
      · subst hne
        rw [procpath_empty] at h
        cases h
      · by_cases hrest : rest = []
        · subst hrest
          exact hne
        · rw [walkable_cons hrest]
          by_cases harr : endsWithMarker component
          · rw [procpath_array hne hrest harr] at h
            obtain ⟨n, s₁, _, hels⟩ := bind_eq_ok.mp h
            obtain ⟨xs, s₂, hxs, _⟩ := bind_eq_ok.mp hels
            -- the length is positive, so the first element was built and looked up
            obtain ⟨x, s₃, hx⟩ := mapM_range_eq_ok hxs
            obtain ⟨element, s₄, hwalk, hget⟩ := bind_eq_ok.mp hx
            have hstrip : stripMarker component ≠ [] := by
              intro hnil
              rw [hnil, procpath_empty] at hwalk
              cases hwalk
            obtain ⟨w, hrun, rfl⟩ := procpath_object_eq_ok hstrip hrest
              (not_endsWithMarker_stripMarker component) hwalk
            refine ⟨hne, ?_, ih hrun⟩
            -- with a parenthesis in front the lookup uses a name the element lacks
            rintro ⟨_, hparen⟩
            obtain ⟨c, r, rfl⟩ := List.exists_cons_of_ne_nil hne
            obtain ⟨items, hitems, hlook⟩ := getItem_eq_ok (fromExcept_eq_ok.mp hget).1
            cases hitems
            have hkey : (stripName (c :: r) == stripName (stripMarker (c :: r))) = false := by
              simpa using (stripName_stripMarker_ne hparen r).symm
            rw [List.lookup_cons, hkey] at hlook
            cases hlook
          · obtain ⟨w, hrun, _⟩ := procpath_object_eq_ok hne hrest harr h
            exact ⟨hne, fun hp => harr hp.1, ih hrun⟩

/-- A path that is not walkable raises, whatever the generator does. -/
theorem procpath_raises {path : List PyStr} (h : ¬ Walkable path) (g : Gen) (s : DocState) :
    ∃ e t, procpath path g s = .error e t := by
  cases hp : procpath path g s with
  | ok v t => exact absurd (walkable_of_procpath_eq_ok hp) h
  | error e t => exact ⟨e, t, rfl⟩

-- ============================================================================
-- What raises on a walkable path
-- ============================================================================

/-- An exception of the evaluated generator, or of a draw with `maxArraySize` below 1. -/
def Outside : PyErr → DocState → Prop
  | .generator _, _ => True
  | .valueError, s => s.world.maxArraySize < 1
  | _, _ => False

theorem randintFromOne_raises (hi : Int) :
    Raises (fun e _ => e = .valueError ∧ hi < 1) (randintFromOne hi) := by
  rw [randintFromOne]
  split
  · exact Raises.throw fun _ => ⟨rfl, ‹_›⟩
  · refine Raises.bind (fun s e t h => ?_) fun d => Raises.pure _
    cases h

theorem Gen.eval_raises (g : Gen) : Raises (fun e _ => ∃ msg, e = .generator msg) g.eval := by
  induction g with
  | ret v => exact Raises.pure v
  | raise msg => exact Raises.throw fun _ => ⟨msg, rfl⟩
  | random k ih => exact Raises.bind (fun _ _ _ h => nomatch h) ih
  | callID key k ih => exact Raises.bind (fun _ _ _ h => nomatch h) ih
  | callSetArraySize size k ih => exact Raises.bind (fun _ _ _ h => nomatch h) ih
  | readMaxArraySize k ih => exact Raises.bind (fun _ _ _ h => nomatch h) fun w => ih w.maxArraySize

theorem fill_raises (len : PyStr → Nat) (g : Gen) (cs : List Comp) :
    Raises (fun e _ => ∃ msg, e = .generator msg) (fill len g cs) := by
  induction cs with
  | nil => exact Raises.bind g.eval_raises fun v => Raises.pure _
  | cons c cs ih =>
      rw [fill]
      split
      · exact Raises.bind (Raises.mapM (fun _ => ih) _) fun xs => Raises.pure _
      · exact Raises.bind ih fun t => Raises.pure _

theorem lookupCount_raises (name : PyStr) : Raises Outside (lookupCount name) := by
  intro s e t h
  cases hc : s.counts name with
  | some n =>
      rw [lookupCount_of_some hc] at h
      cases h
  | none =>
      rw [lookupCount_of_none hc] at h
      cases hr : randintFromOne s.world.maxArraySize s.world with
      | ok n w =>
          rw [hr] at h
          cases h
      | error e' w =>
          rw [hr] at h
          cases h
          obtain ⟨rfl, hlt⟩ := randintFromOne_raises _ _ _ _ hr
          rw [randintFromOne, if_pos hlt] at hr
          cases hr
          exact hlt

theorem drawLengths_raises (ks : List PyStr) : Raises Outside (drawLengths ks) := by
  induction ks with
  | nil => exact Raises.pure _
  | cons k ks ih => exact Raises.bind (lookupCount_raises k) fun _ => ih

theorem rowRun_raises (cs : List Comp) (g : Gen) : Raises Outside (rowRun cs g) := by
  refine Raises.bind (drawLengths_raises _) fun _ =>
    Raises.bind (fun _ _ _ h => nomatch h) fun s => ?_
  refine Raises.zoom ?_ (fill_raises s.counts.len g cs)
  rintro e s t ⟨msg, rfl⟩
  trivial

/-- A tree that `procpath` returns has the name of the first component as its only key. -/
theorem procpath_single_key {component : PyStr} {rest : List PyStr} {g : Gen} {s t : DocState}
    {v : Value} (h : procpath (component :: rest) g s = .ok v t) :
    ∃ w, v = .dict [(stripName component, w)] := by
  obtain ⟨f, rfl, _⟩ := (procpath_eq_ok (walkable_of_procpath_eq_ok h)).mp h
  have hcomps : ∃ c cs, comps (component :: rest) = c :: cs ∧ c.name = stripName component := by
    by_cases hrest : rest = []
    · subst hrest
      exact ⟨_, _, rfl, rfl⟩
    · exact ⟨_, _, comps_cons hrest, rfl⟩
  obtain ⟨c, cs, hcs, hname⟩ := hcomps
  rw [valueTree, hcs, tree_cons, hname]
  exact ⟨_, rfl⟩

-- ============================================================================
-- When the generator returns
-- ============================================================================

/-- There is room for an element: `maxArraySize` is at least 1. -/
def World.Roomy (w : World) : Prop := 1 ≤ w.maxArraySize

theorem roomy_fresh (draws : Nat → Nat) : (World.fresh draws).Roomy := by
  show (1 : Int) ≤ 5
  omega

/-- There is room for an element while a document is built. -/
def DocState.Roomy (s : DocState) : Prop := s.world.Roomy

variable {path rest : List PyStr} {component : PyStr} {g : Gen}

/-- The generator returns and leaves `maxArraySize` at 1 or more, in every process that has it
    there. -/
def Gen.Returns (g : Gen) : Prop :=
  Ends World.Roomy g.eval none (fun _ => World.Roomy) World.Roomy

theorem lookupCount_ends (name : PyStr) :
    Ends DocState.Roomy (lookupCount name) none (fun _ => DocState.Roomy) DocState.Roomy := by
  intro s hs
  cases hc : s.counts name with
  | some n => exact ⟨n, s, lookupCount_of_some hc, hs⟩
  | none =>
      obtain ⟨n, w, hr⟩ := randintFromOne_exists (w := s.world) hs
      obtain ⟨_, rfl⟩ := randintFromOne_eq_ok hr
      rw [lookupCount_of_none hc, hr]
      exact ⟨n, _, rfl, hs⟩

theorem onWorld_ends (hg : g.Returns) :
    Ends DocState.Roomy (onWorld g.eval) none (fun _ => DocState.Roomy) DocState.Roomy := by
  have hends : Ends World.Roomy g.eval none (fun _ => World.Roomy) World.Roomy := hg
  exact hends.zoom (fun _ hs => hs) (fun _ _ _ _ ht => ht) fun _ _ _ ht => ht

/-- The array branch of `procpath` ends as its first element does. -/
theorem arrayBranch_ends {x : Py DocState Value} {r : Option PyErr} (name : PyStr)
    (hx : Ends DocState.Roomy x r (fun _ => DocState.Roomy) DocState.Roomy) :
    Ends DocState.Roomy (do
      let length ← lookupCount name
      let elements ← (List.range length).mapM fun _ => x
      pure (DataTree.dict [(name, .list elements)])) r (fun _ => DocState.Roomy)
      DocState.Roomy := by
  refine (lookupCount_ends name).bind fun length => ?_
  have hrounds := hx.rounds length
  rw [if_neg length.ne_zero] at hrounds
  exact hrounds.map fun _ _ hs => hs.2

/-- The exception of `procpath` on a path, if its generator does not raise. -/
def pathError : List PyStr → Option PyErr
  | [] => some .indexError
  | component :: rest =>
      if component = [] then some .indexError
      else if rest = [] then none
      else if endsWithMarker component ∧ startsWithParen component then
        -- the rest of the path is walked before the lookup misses
        if stripMarker component = [] then some .indexError
        else (pathError rest).or (some .keyError)
      else pathError rest

theorem pathError_last (hne : component ≠ []) : pathError [component] = none := by
  rw [pathError, if_neg hne, if_pos rfl]

theorem pathError_object (hne : component ≠ []) (hrest : rest ≠ [])
    (h : ¬ (endsWithMarker component ∧ startsWithParen component)) :
    pathError (component :: rest) = pathError rest := by
  rw [pathError, if_neg hne, if_neg hrest, if_neg h]

/-- **What `procpath` raises.**  Its exception is decided by the path alone. -/
theorem procpath_ends (hg : g.Returns) (path : List PyStr) :
    Ends DocState.Roomy (procpath path g) (pathError path) (fun _ => DocState.Roomy)
      DocState.Roomy := by
  induction path with
  | nil =>
      rw [procpath_nil]
      exact Ends.throw (fun s hs => hs) _
  | cons component rest ih =>
      by_cases hne : component = []
      · subst hne
        rw [procpath_empty]
        exact Ends.throw (fun s hs => hs) _
      by_cases hrest : rest = []
      · subst hrest
        -- last component: whatever the generator does, and it returns
        rw [procpath_last hne, pathError_last hne]
        exact (onWorld_ends hg).map fun _ _ hs => hs
      by_cases hmark : endsWithMarker component
      · by_cases hparen : startsWithParen component
        · -- the lookup of the first element misses
          rw [procpath_array hne hrest hmark]
          apply arrayBranch_ends
          rw [pathError, if_neg hne, if_neg hrest, if_pos ⟨hmark, hparen⟩]
          by_cases hstrip : stripMarker component = []
          · rw [if_pos hstrip, hstrip, procpath_empty]
            exact Ends.throw_bind (fun s hs => hs) _ _
          · rw [if_neg hstrip, procpath_object hstrip hrest (not_endsWithMarker_stripMarker _),
              bind_assoc]
            refine ih.seq fun v => ?_
            obtain ⟨c, s, rfl⟩ := List.exists_cons_of_ne_nil hne
            have hkey : (stripName (c :: s) == stripName (stripMarker (c :: s))) = false := by
              simpa using (stripName_stripMarker_ne hparen s).symm
            have hmiss : getItem (.dict [(stripName (stripMarker (c :: s)), v)])
                (stripName (c :: s)) = .error .keyError := by
              simp [getItem, List.lookup_cons, hkey]
            rw [pure_bind, hmiss]
            exact Ends.throw (fun s hs => hs) _
        -- array: every element ends as the rest of the path does
        · rw [procpath_array hne hrest hmark, procpath_stripMarker hne hrest hparen,
            pathError_object hne hrest fun h => hparen h.2]
          exact arrayBranch_ends _ ih
      -- object: ends as the rest of the path does
      · rw [procpath_object hne hrest hmark, pathError_object hne hrest fun h => hmark h.1]
        exact ih.map fun _ _ hs => hs

theorem pathError_of_walkable (h : Walkable path) : pathError path = none := by
  induction path with
  | nil => exact absurd h id
  | cons component rest ih =>
      by_cases hrest : rest = []
      · subst hrest
        exact pathError_last h
      · obtain ⟨hne, hmark, hwalk⟩ := (walkable_cons hrest).mp h
        rw [pathError_object hne hrest hmark, ih hwalk]

/-- A component is empty, or it is not the last one, ends with `()` and starts with a
    parenthesis. -/
def Malformed (path : List PyStr) : Prop :=
  (∃ c ∈ path, c = []) ∨ ∃ c ∈ path.dropLast, endsWithMarker c ∧ startsWithParen c

instance (path : List PyStr) : Decidable (Malformed path) := inferInstanceAs (Decidable (_ ∨ _))

/-- **When `procpath` raises.**  If the generator returns and leaves `maxArraySize` at 1 or more,
    `procpath` raises if and only if the path is malformed, and otherwise it returns a dictionary
    with the one key `stripProp(path[0])`.  Whatever the generator does, a malformed path raises,
    any other exception comes from outside the path, and nothing else is returned.  The lookup
    of the array branch finds its key for just the strings that do not start with a
    parenthesis. -/
theorem procpath_raises_iff {component : PyStr} {rest : List PyStr} (g : Gen) (s : DocState) :
    (g.Returns → s.Roomy →
      ((∃ e t, procpath (component :: rest) g s = .error e t) ↔ Malformed (component :: rest)) ∧
      (¬ Malformed (component :: rest) → ∃ key w t, stripProp component = .ok key ∧
        procpath (component :: rest) g s = .ok (.dict [(key, w)]) t)) ∧
    (Malformed (component :: rest) → ∃ e t, procpath (component :: rest) g s = .error e t) ∧
    (∀ e t, procpath (component :: rest) g s = .error e t →
      Malformed (component :: rest) ∨ Outside e t) ∧
    (∀ v t, procpath (component :: rest) g s = .ok v t →
      ∃ w key, stripProp component = .ok key ∧ v = .dict [(key, w)]) ∧
    (endsWithMarker component → ¬ startsWithParen component →
      stripProp (stripMarker component) = stripProp component) ∧
    (endsWithMarker component → startsWithParen component → rest ≠ [] →
      ∃ e t, procpath (component :: rest) g s = .error e t) := by
  have hwalk : ¬ Walkable (component :: rest) ↔ Malformed (component :: rest) :=
    not_walkable_iff (List.cons_ne_nil component rest)
  have hbad : Malformed (component :: rest) →
      ∃ e t, procpath (component :: rest) g s = .error e t :=
    fun h => procpath_raises (hwalk.mpr h) g s
  have hkey : ∀ v t, procpath (component :: rest) g s = .ok v t →
      ∃ w key, stripProp component = .ok key ∧ v = .dict [(key, w)] := by
    intro v t h
    obtain ⟨w, rfl⟩ := procpath_single_key h
    refine ⟨w, stripName component, stripProp_of_ne_nil ?_, rfl⟩
    rintro rfl
    rw [procpath_empty] at h
    cases h
  refine ⟨fun hg hs => ?_, hbad, ?_, hkey, ?_, ?_⟩
  · -- on a path that is not malformed the run has no exception in store
    have hreturns : ¬ Malformed (component :: rest) →
        ∃ v t, procpath (component :: rest) g s = .ok v t := by
      intro hgood
      have hends := procpath_ends hg (component :: rest)
      rw [pathError_of_walkable (not_not.mp (mt hwalk.mp hgood))] at hends
      obtain ⟨v, t, hv, _⟩ := hends.returns hs
      exact ⟨v, t, hv⟩
    refine ⟨⟨?_, hbad⟩, fun hgood => ?_⟩
    · rintro ⟨e, t, he⟩
      by_contra hgood
      obtain ⟨v, u, hv⟩ := hreturns hgood
      rw [he] at hv
      cases hv
    · obtain ⟨v, t, hv⟩ := hreturns hgood
      obtain ⟨w, key, hstrip, rfl⟩ := hkey v t hv
      exact ⟨key, w, t, hstrip, hv⟩
  · -- walked to its end, a path passes on what the draws and the generator raise
    intro e t he
    by_cases hw : Walkable (component :: rest)
    · rw [procpath_eq hw] at he
      exact Or.inr (rowRun_raises _ g s e t he)
    · exact Or.inl (hwalk.mp hw)
  · -- the two ways of stripping agree, unless a parenthesis comes first
    intro hmark hparen
    obtain ⟨c, r, rfl⟩ : ∃ c r, component = c :: r := by
      apply List.exists_cons_of_ne_nil
      rintro rfl
      exact not_endsWithMarker_nil hmark
    rw [stripProp_of_ne_nil (stripMarker_ne_nil hparen r), stripName_stripMarker hparen]
    rfl
  -- a component that the two ways strip to different names is malformed
  · intro hmark hparen hrest
    refine hbad (Or.inr ⟨component, ?_, hmark, hparen⟩)
    rw [List.dropLast_cons_of_ne_nil hrest]
    exact List.mem_cons_self

/-- An array of identifiers is walked to its end; with a parenthesis in front its lookup fails. -/
theorem members_walked :
    (∃ key w t, stripProp "members()".toList = .ok key ∧
      procpath ["members()".toList, "ID".toList] (.id "M".toList)
        (DocState.start (World.fresh fun _ => 1)) = .ok (.dict [(key, w)]) t) ∧
    ∃ e t, procpath ["(members)()".toList, "ID".toList] (.id "M".toList)
      (DocState.start (World.fresh fun _ => 1)) = .error e t := by
  have hg : (Gen.id "M".toList).Returns := fun _ hw => ⟨_, _, rfl, hw⟩
  have hs : (DocState.start (World.fresh fun _ => 1)).Roomy := roomy_fresh _
  constructor
  · exact ((procpath_raises_iff _ _).1 hg hs).2 (by decide)
  · exact ((procpath_raises_iff _ _).1 hg hs).1.mpr (by decide)

end MLocust.Faker
