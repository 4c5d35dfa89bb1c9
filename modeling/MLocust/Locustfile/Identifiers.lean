/-
  MLocust.Locustfile.Identifiers

  The identifiers that the users of a worker hand over.

  The users of `locustfile-faker.py` share the counters behind `ID`, and their batches
  are generated and inserted in any interleaving, some of them raising.  The
  identifiers that reach `insert_many` are distinct all the same, and each user
  hands over its own in ascending order (`worker_ids_distinct`).

  That ends at the process: every worker counts from 1, so of two workers that
  generate without raising, one issues what the other one issues (`workers_share_ids`).
-/
import MLocust.Faker.ModelCheck
import MLocust.Locustfile.Worker
import Mathlib.Data.List.Flatten

namespace MLocust.Locustfile

open Lib Lib.Program Lib.Shared DataTree Faker

variable {ι : Type} {M : DocMerger} {env : Env} {key : PyStr}

/-- The rows of a model, if all of them can be read. -/
def modelRows (env : Env) (model : PyStr) : List Row :=
  ((env.rows (templatePath env model)).mapM (readRow env)).toOption.getD []

/-- What a batch holds at the `ID(key)` rows of its model, document by document. -/
noncomputable def batchIds (key : PyStr) (env : Env) (model : PyStr) (docs : List Value) :
    List Value :=
  docs.flatMap (foundIds key (modelRows env model))

/-- The rows with `ID(key)` are alone in calling it, and nothing cuts or overrides what they
    issue. -/
structure Keeps (key : PyStr) (rows : List Row) : Prop where
  model : IdModel key rows
  flat : FlatAbove key rows

-- ============================================================================
-- One batch
-- ============================================================================

/-- A model that returns a document could be read. -/
theorem mapM_readRow_of_fetchDoc {template : List (List PyStr)} {w w' : World} {doc : Value}
    (h : fetchDoc M env template w = .ok doc w') :
    ∃ rows, template.mapM (readRow env) = .ok rows := by
  obtain ⟨rows, _, hrows, _⟩ := fetchDoc_eq_ok.mp h
  exact ⟨rows, hrows⟩

/-- The counter has moved past the strings of a document. -/
theorem fetchDoc_counts {template : List (List PyStr)} {rows : List Row}
    (hrows : template.mapM (readRow env) = .ok rows) (hkeeps : Keeps key rows) {w w' : World}
    {doc : Value} (h : fetchDoc M env template w = .ok doc w') :
    ∃ n, foundIds key rows doc = numberedValues key (w.idMap key) n ∧
      w'.idMap key = w.idMap key + n := by
  obtain ⟨rows', t, hrows', hloop, rfl⟩ := fetchDoc_eq_ok.mp h
  rw [hrows] at hrows'
  cases hrows'
  exact ⟨_, rowLoop_consecutive hkeeps.model hkeeps.flat (fun _ _ _ => listsAlong_empty) hloop⟩

/-- The counter has moved past the strings of a batch. -/
theorem batch_counts {α : Type} (l : List α) {template : List (List PyStr)} {rows : List Row}
    (hrows : template.mapM (readRow env) = .ok rows) (hkeeps : Keeps key rows) {w w' : World}
    {docs : List Value} (h : (l.mapM fun _ => fetchDoc M env template) w = .ok docs w') :
    ∃ n, docs.flatMap (foundIds key rows) = numberedValues key (w.idMap key) n ∧
      w'.idMap key = w.idMap key + n := by
  induction l generalizing w docs with
  | nil =>
      cases h
      exact ⟨0, rfl, rfl⟩
  | cons a l ih =>
      rw [List.mapM_cons] at h
      obtain ⟨doc, u, hdoc, h⟩ := bind_eq_ok.mp h
      obtain ⟨rest, u', hrest, hcons⟩ := bind_eq_ok.mp h
      cases hcons
      obtain ⟨m, hfound, hm⟩ := fetchDoc_counts hrows hkeeps hdoc
      obtain ⟨n, hfounds, hn⟩ := ih hrest
      refine ⟨m + n, ?_, by omega⟩
      rw [List.flatMap_cons, hfound, hfounds, hm, numberedValues_add]

/-- **One batch** holds the next strings of the key, and the counter has moved past them. -/
theorem bulkFetch_counts {model : PyStr} {n : Int} (hkeeps : Keeps key (modelRows env model))
    {w w' : World} {docs : List Value} (h : bulkFetch M env model n w = .ok docs w') :
    ∃ n, batchIds key env model docs = numberedValues key (w.idMap key) n ∧
      w'.idMap key = w.idMap key + n := by
  rw [bulkFetch] at h
  split at h
  · cases hread : (env.rows (templatePath env model)).mapM (readRow env) with
    | ok rows =>
        have hrows : modelRows env model = rows := by
          rw [modelRows, hread]
          rfl
        rw [hrows] at hkeeps
        rw [batchIds, hrows]
        exact batch_counts _ hread hkeeps h
    | error e =>
        -- no document can have been made
        cases hn : List.range n.toNat with
        | nil =>
            rw [hn] at h
            cases h
            exact ⟨0, rfl, rfl⟩
        | cons a l =>
            rw [hn, List.mapM_cons] at h
            obtain ⟨doc, u, hdoc, _⟩ := bind_eq_ok.mp h
            obtain ⟨rows, hrows⟩ := mapM_readRow_of_fetchDoc hdoc
            rw [hread] at hrows
            cases hrows
  · cases h

/-- A batch that raised has not moved a counter back. -/
theorem idMap_mono {w w' : World} (h : WorldSteps w w') : w.idMap key ≤ w'.idMap key := by
  induction h with
  | refl => exact Nat.le_refl _
  | @tail u v _ hstep ih =>
      apply Nat.le_trans ih
      cases hstep with
      | draw => exact Nat.le_refl _
      | setArraySize size => exact Nat.le_refl _
      | id key' =>
          show u.idMap key ≤ Function.update u.idMap key' (u.idMap key' + 1) key
          by_cases hkey : key = key'
          · subst hkey
            rw [Function.update_self]
            exact Nat.le_succ _
          · rw [Function.update_of_ne hkey]

-- ============================================================================
-- All batches of a worker
-- ============================================================================

/-- The users of a worker, each with its model and its batch size. -/
def fakerUsers (M : DocMerger) (env : Env) (model : ι → PyStr) (size : ι → Int) :
    ι → Loader World Value := fun i => fakerLoader M env (model i) (size i)

/-- What some batches hold at the `ID(key)` rows of the models of their users. -/
noncomputable def usersIds (key : PyStr) (env : Env) (model : ι → PyStr)
    (batches : List (ι × List Value)) : List Value :=
  batches.flatMap fun x => batchIds key env (model x.1) x.2

/-- The batches that the calls returned, with their users. -/
def returned (calls : List (ι × Generated Value)) : List (ι × List Value) :=
  pick Except.toOption calls

/-- Some values are among the next `n` of the key, in order, and all of them if `complete`. -/
def Among (key : PyStr) (c n : Nat) (complete : Prop) (ids : List Value) : Prop :=
  ids.Sublist (numberedValues key c n) ∧ (complete → ids = numberedValues key c n)

theorem Among.append {c m n : Nat} {complete complete' : Prop} {ids ids' : List Value}
    (h : Among key c m complete ids) (h' : Among key (c + m) n complete' ids') :
    Among key c (m + n) (complete ∧ complete') (ids ++ ids') := by
  rw [Among, numberedValues_add]
  exact ⟨h.1.append h'.1, fun hall => by rw [h.2 hall.1, h'.2 hall.2]⟩

theorem usersIds_returned_append (model : ι → PyStr) (calls calls' : List (ι × Generated Value)) :
    usersIds key env model (returned (calls ++ calls')) =
      usersIds key env model (returned calls) ++ usersIds key env model (returned calls') := by
  rw [returned, pick_append, usersIds, List.flatMap_append]
  rfl

variable {model : ι → PyStr} {size : ι → Int} {p q : World}

variable (M size) in
/-- A generation on the process moves the counter by the identifiers of its batch; if it raises,
    it may move the counter anyhow. -/
theorem generateOn_counts (hkeeps : ∀ i, Keeps key (modelRows env (model i))) (i : ι) (q : World) :
    ∃ n, ((fakerUsers M env model size i).generateOn q).2.idMap key = q.idMap key + n ∧
      Among key (q.idMap key) n ((fakerUsers M env model size i).generateOn q).1.toOption.isSome
        (usersIds key env model
          (returned [(i, ((fakerUsers M env model size i).generateOn q).1)])) := by
  have hsteps := bulkFetch_steps M env (model i) (size i)
  cases hrun : bulkFetch M env (model i) (size i) q with
  | ok docs w =>
      rw [generateOn_of_ok rfl hrun]
      obtain ⟨n, hids, hn⟩ := bulkFetch_counts (hkeeps i) hrun
      have hlast : usersIds key env model (returned [(i, Except.ok docs)]) =
          numberedValues key (q.idMap key) n := by
        rw [← hids]
        exact List.append_nil _
      refine ⟨n, hn, ?_, fun _ => hlast⟩
      show (usersIds key env model (returned [(i, Except.ok docs)])).Sublist _
      rw [hlast]
  | error e w =>
      rw [generateOn_of_error rfl hrun]
      obtain ⟨n, hn⟩ := Nat.exists_eq_add_of_le (idMap_mono (hsteps.of_error hrun))
      exact ⟨n, hn, List.nil_sublist _, fun hok => nomatch hok⟩

/-- Generation after generation, the batches hold strings of the key in the order they were
    issued in; without a gap if none raised. -/
theorem serial_ids (hkeeps : ∀ i, Keeps key (modelRows env (model i)))
    {calls : List (ι × Generated Value)}
    (h : Serial (fun i => (fakerUsers M env model size i).client) p calls q) :
    ∃ n, q.idMap key = p.idMap key + n ∧
      Among key (p.idMap key) n (∀ call ∈ calls, call.2.toOption.isSome)
        (usersIds key env model (returned calls)) := by
  induction h with
  | nil => exact ⟨0, rfl, .slnil, fun _ => rfl⟩
  | @snoc calls q i _ ih =>
      obtain ⟨m, hm, hbefore⟩ := ih
      obtain ⟨n, hn, hlast⟩ := generateOn_counts M size hkeeps i q
      rw [hm] at hlast
      obtain ⟨hsub, hall⟩ := hbefore.append hlast
      refine ⟨m + n, ?_, ?_, fun hok => ?_⟩
      · show ((fakerUsers M env model size i).generateOn q).2.idMap key = _
        omega
      · rw [usersIds_returned_append]
        exact hsub
      · rw [usersIds_returned_append]
        exact hall ⟨fun call hcall => hok call (List.mem_append_left _ hcall),
          hok _ (List.mem_append_right _ (List.mem_singleton_self _))⟩

section Worker

variable [DecidableEq ι] {s : System ι World (Generated Value) (Phase Value) (Event Value)}

/-- The batches handed over in a worker are among those that were generated. -/
theorem handed_subperm_returned {loaders : ι → Loader World Value} (h : WorkerReaches loaders p s) :
    (pick Event.handed? s.events).Subperm (returned s.calls) := by
  apply subperm_of_forall_of
  intro i
  have hbatches := solo_handed (solo_of_steps h i)
  rw [of_pick, returned, of_pick]
  show (handed (of i s.events)).Subperm (batches (of i s.calls))
  rw [← hbatches]
  exact (List.sublist_append_left _ _).subperm

end Worker

theorem numberedValues_nodup (key : PyStr) (c n : Nat) : (numberedValues key c n).Nodup := by
  apply (numbered_nodup key c n).map
  intro s t hst
  cases hst
  rfl

/-- **No identifier is handed over twice.**  Whatever the interleaving, the identifiers of one key
    in all batches that the users of a worker pass to `insert_many` are distinct; and each user
    passes its own on in ascending order. -/
theorem worker_ids_distinct [DecidableEq ι] (M : DocMerger) (env : Env) (model : ι → PyStr)
    (size : ι → Int) (key : PyStr) (hkeeps : ∀ i, Keeps key (modelRows env (model i)))
    (p : World) (s : System ι World (Generated Value) (Phase Value) (Event Value))
    (h : WorkerReaches (fakerUsers M env model size) p s) :
    (usersIds key env model (pick Event.handed? s.events)).Nodup ∧
      ∀ i, ((handed (of i s.events)).flatMap (batchIds key env (model i))).Sublist
        (numberedValues key (p.idMap key) (s.shared.idMap key - p.idMap key)) := by
  obtain ⟨n, hn, hsub, _⟩ := serial_ids hkeeps (serial_of_steps h)
  refine ⟨?_, fun i => ?_⟩
  -- what is handed over is part of what was generated, in some order
  · have hids : (usersIds key env model (pick Event.handed? s.events)).Subperm
        (usersIds key env model (returned s.calls)) := by
      obtain ⟨l, hperm, hl⟩ := handed_subperm_returned h
      exact ⟨_, hperm.flatMap_right _, hl.flatMap _⟩
    obtain ⟨l, hperm, hl⟩ := hids
    exact hperm.nodup_iff.mp ((numberedValues_nodup key _ n).sublist (hl.trans hsub))
  -- the batches of one user, in order, without one that is still in flight
  · have hbatches := solo_handed (solo_of_steps h i)
    have hpart : ((batches (of i s.calls)).flatMap (batchIds key env (model i))).Sublist
        (usersIds key env model (returned s.calls)) := by
      have hof := of_flatMap_sublist (fun i => batchIds key env (model i)) i (returned s.calls)
      rw [returned, of_pick] at hof
      exact hof
    have hdiff : s.shared.idMap key - p.idMap key = n := by omega
    rw [hdiff]
    rw [← hbatches, List.flatMap_append] at hpart
    exact (List.sublist_append_left _ _).trans (hpart.trans hsub)

theorem memberRows_keeps : Keeps "M".toList (modelRows memberEnv "member.csv".toList) where
  model := memberRows_idModel
  flat := .cons (fun row hrow hid => by
    rw [List.mem_singleton.mp hrow] at hid
    cases hid) (List.pairwise_singleton ..)

/-- A batch of the members. -/
theorem member_generateOn (i : Bool) {w : World} (hw : w.Roomy) :
    ∃ docs w', (fakerUsers merger memberEnv (fun _ : Bool => "member.csv".toList)
      (fun _ => 1) i).generateOn w = (.ok docs, w') ∧ w'.Roomy := by
  obtain ⟨docs, w', hrun, _, hw'⟩ :=
    (bulkFetch_returns merger memberEnv "member.csv".toList 1 rfl rfl memberRows_tame).returns hw
  exact ⟨docs, w', generateOn_of_ok rfl hrun, hw'⟩

/-- Two users generate before either of them inserts. -/
theorem exists_members : ∃ s, WorkerReaches
    (fakerUsers merger memberEnv (fun _ : Bool => "member.csv".toList) fun _ => 1)
    (World.fresh fun _ => 1) s ∧ (∀ call ∈ s.calls, call.2.toOption.isSome) ∧
    s.calls.length = 2 ∧ (pick Event.handed? s.events).length = 2 := by
  obtain ⟨docs, w, hop, hw⟩ := member_generateOn true (roomy_fresh fun _ => 1)
  obtain ⟨docs', w', hop', _⟩ := member_generateOn false hw
  refine ⟨_, .head (.of_op (i := true) hop (.generated 0 docs)) <|
    .head (.of_op (i := false) hop' (.generated 1 docs')) <|
    .head (.own (i := false) (.inserted 1 2 docs')) <|
    .single (.own (i := true) (.inserted 0 3 docs)), ?_, rfl, rfl⟩
  intro call hcall
  simp only [System.start, List.nil_append, List.cons_append, List.mem_cons,
    List.not_mem_nil, or_false] at hcall
  rcases hcall with rfl | rfl
  · rfl
  · rfl

/-- The identifiers of two users who insert in the other order. -/
theorem member_ids_distinct : ∃ s, WorkerReaches
      (fakerUsers merger memberEnv (fun _ : Bool => "member.csv".toList) fun _ => 1)
      (World.fresh fun _ => 1) s ∧ (pick Event.handed? s.events).length = 2 ∧
    (usersIds "M".toList memberEnv (fun _ => "member.csv".toList)
      (pick Event.handed? s.events)).Nodup ∧
    ∀ i, ((handed (of i s.events)).flatMap
        (batchIds "M".toList memberEnv "member.csv".toList)).Sublist
      (numberedValues "M".toList ((World.fresh fun _ => 1).idMap "M".toList)
        (s.shared.idMap "M".toList - (World.fresh fun _ => 1).idMap "M".toList)) := by
  obtain ⟨s, h, _, _, hlen⟩ := exists_members
  exact ⟨s, h, hlen, worker_ids_distinct merger memberEnv _ _ "M".toList
    (fun _ => memberRows_keeps) _ s h⟩

-- ============================================================================
-- Two workers
-- ============================================================================

theorem numberedValues_isPrefix (key : PyStr) (c : Nat) {m n : Nat} (h : m ≤ n) :
    numberedValues key c m <+: numberedValues key c n := by
  obtain ⟨k, rfl⟩ := Nat.exists_eq_add_of_le h
  rw [numberedValues_add]
  exact List.prefix_append _ _

/-- **Workers share their identifiers.**  Of two workers whose generations all returned, whatever
    their users, models, draws and interleavings, one has generated the identifiers that the
    other one has generated, in the same order, and then more. -/
theorem workers_share_ids {ι' : Type} [DecidableEq ι] [DecidableEq ι'] (M : DocMerger) (env : Env)
    (key : PyStr) (model : ι → PyStr) (size : ι → Int) (model' : ι' → PyStr) (size' : ι' → Int)
    (hkeeps : ∀ i, Keeps key (modelRows env (model i)))
    (hkeeps' : ∀ i, Keeps key (modelRows env (model' i))) (draws draws' : Nat → Nat)
    (s : System ι World (Generated Value) (Phase Value) (Event Value))
    (s' : System ι' World (Generated Value) (Phase Value) (Event Value))
    (h : WorkerReaches (fakerUsers M env model size) (World.fresh draws) s)
    (h' : WorkerReaches (fakerUsers M env model' size') (World.fresh draws') s')
    (hok : ∀ call ∈ s.calls, call.2.toOption.isSome)
    (hok' : ∀ call ∈ s'.calls, call.2.toOption.isSome) :
    usersIds key env model (returned s.calls) <+:
        usersIds key env model' (returned s'.calls) ∨
      usersIds key env model' (returned s'.calls) <+:
        usersIds key env model (returned s.calls) := by
  obtain ⟨n, _, _, hall⟩ := serial_ids hkeeps (serial_of_steps h)
  obtain ⟨n', _, _, hall'⟩ := serial_ids hkeeps' (serial_of_steps h')
  rw [hall hok, hall' hok']
  rcases Nat.le_total n n' with hle | hle
  · exact Or.inl (numberedValues_isPrefix key _ hle)
  · exact Or.inr (numberedValues_isPrefix key _ hle)

/-- Two workers with two users each. -/
theorem members_share_ids : ∃ s s', (s.calls.length = 2 ∧ s'.calls.length = 2) ∧
    (WorkerReaches (fakerUsers merger memberEnv (fun _ : Bool => "member.csv".toList) fun _ => 1)
      (World.fresh fun _ => 1) s ∧
    WorkerReaches (fakerUsers merger memberEnv (fun _ : Bool => "member.csv".toList) fun _ => 1)
      (World.fresh fun _ => 1) s') ∧
    (usersIds "M".toList memberEnv (fun _ => "member.csv".toList) (returned s.calls) <+:
        usersIds "M".toList memberEnv (fun _ => "member.csv".toList) (returned s'.calls) ∨
      usersIds "M".toList memberEnv (fun _ => "member.csv".toList) (returned s'.calls) <+:
        usersIds "M".toList memberEnv (fun _ => "member.csv".toList) (returned s.calls)) := by
  obtain ⟨s, h, hok, hcalls, _⟩ := exists_members
  obtain ⟨s', h', hok', hcalls', _⟩ := exists_members
  exact ⟨s, s', ⟨hcalls, hcalls'⟩, ⟨h, h'⟩, workers_share_ids merger memberEnv "M".toList _ _ _ _
    (fun _ => memberRows_keeps) (fun _ => memberRows_keeps) _ _ s s' h h' hok hok'⟩

end MLocust.Locustfile
