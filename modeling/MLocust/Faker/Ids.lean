/-
  MLocust.Faker.Ids

  The strings that `ID` issues over the life of a process.

  The history variable `World.calls` holds every call of `ID` with its result.
  Key by key, the strings issued are the key followed by 1, 2, 3, ...
  (`issuedFor_of_reachable`), so one key never gets a string twice.  Two different
  keys can get the same string, since nothing separates the key from its number;
  `ids_distinct_iff` says for which sets of keys this happens.
-/
import MLocust.Faker.BulkFetch
import MLocust.Lib.Numeral
import Mathlib.Data.List.Nodup
import Mathlib.Data.Set.Basic

namespace MLocust.Faker

open Lib Lib.Program

/-- The key and the result of a call of `ID`. -/
def Call.issue? : Call → Option (PyStr × PyStr)
  | .id key result => some (key, result)
  | .setArraySize _ => none

/-- Every string issued so far, with its key, oldest first. -/
def World.issues (w : World) : List (PyStr × PyStr) := w.calls.filterMap Call.issue?

/-- Every string issued so far. -/
def World.issued (w : World) : List PyStr := w.issues.map Prod.snd

/-- The key of every string issued so far. -/
def World.keys (w : World) : List PyStr := w.issues.map Prod.fst

/-- The strings issued for one key. -/
def World.issuedFor (w : World) (key : PyStr) : List PyStr :=
  (w.issues.filter fun issue => issue.1 = key).map Prod.snd

/-- The key followed by `c + 1`, ..., `c + n`. -/
def numbered (key : PyStr) (c n : Nat) : List PyStr :=
  (List.range n).map fun i => key ++ str (c + i + 1)

theorem issues_afterID (w : World) (key : PyStr) :
    (w.afterID key).issues = w.issues ++ [(key, key ++ str (w.idMap key + 1))] := by
  show (w.calls ++ _).filterMap Call.issue? = _
  rw [List.filterMap_append]
  rfl

theorem issues_afterSetArraySize (w : World) (size : Int) :
    (w.afterSetArraySize size).issues = w.issues := by
  show (w.calls ++ [Call.setArraySize size]).filterMap Call.issue? = _
  rw [List.filterMap_append]
  exact List.append_nil _

theorem keys_afterID (w : World) (key : PyStr) : (w.afterID key).keys = w.keys ++ [key] := by
  rw [World.keys, issues_afterID, List.map_append]
  rfl

theorem issued_afterID (w : World) (key : PyStr) :
    (w.afterID key).issued = w.issued ++ [key ++ str (w.idMap key + 1)] := by
  rw [World.issued, issues_afterID, List.map_append]
  rfl

theorem issuedFor_afterID_self (w : World) (key : PyStr) :
    (w.afterID key).issuedFor key = w.issuedFor key ++ [key ++ str (w.idMap key + 1)] := by
  rw [World.issuedFor, issues_afterID, List.filter_append, List.map_append,
    List.filter_cons_of_pos (by simp)]
  rfl

theorem issuedFor_afterID_of_ne {w : World} {key key' : PyStr} (h : key ≠ key') :
    (w.afterID key).issuedFor key' = w.issuedFor key' := by
  rw [World.issuedFor, issues_afterID, List.filter_append, List.map_append,
    List.filter_cons_of_neg (by simpa using h)]
  exact List.append_nil _

theorem mem_issuedFor {w : World} {key s : PyStr} :
    s ∈ w.issuedFor key ↔ (key, s) ∈ w.issues := by
  simp [World.issuedFor]

theorem mem_numbered {key s : PyStr} {c n : Nat} :
    s ∈ numbered key c n ↔ ∃ i < n, key ++ str (c + i + 1) = s := by
  simp [numbered]

theorem length_numbered (key : PyStr) (c n : Nat) : (numbered key c n).length = n := by
  rw [numbered, List.length_map, List.length_range]

theorem numbered_succ (key : PyStr) (c n : Nat) :
    numbered key c (n + 1) = numbered key c n ++ [key ++ str (c + n + 1)] := by
  rw [numbered, List.range_succ, List.map_append]
  rfl

theorem numbered_add (key : PyStr) (c m n : Nat) :
    numbered key c (m + n) = numbered key c m ++ numbered key (c + m) n := by
  induction n with
  | zero => exact (List.append_nil _).symm
  | succ n ih =>
      have hsum : c + (m + n) + 1 = c + m + n + 1 := by omega
      rw [← Nat.add_assoc, numbered_succ, numbered_succ, ih, List.append_assoc, hsum]

/-- One key never gets a string twice. -/
theorem numbered_nodup (key : PyStr) (c n : Nat) : (numbered key c n).Nodup := by
  apply List.Nodup.map _ List.nodup_range
  intro i j h
  have hnum := toDigits_injective (List.append_cancel_left h)
  omega

-- ============================================================================
-- Key by key
-- ============================================================================

/-- The strings issued for each key are the key followed by 1, 2, 3, ..., as many as
    `id_map` has counted. -/
def IdLog (w : World) : Prop := ∀ key, w.issuedFor key = numbered key 0 (w.idMap key)

theorem idLog_fresh (draws : Nat → Nat) : IdLog (World.fresh draws) := fun _ => rfl

theorem IdLog.step {w w' : World} (h : IdLog w) (hs : WorldStep w w') : IdLog w' := by
  intro key
  cases hs with
  | draw => exact h key
  | setArraySize size =>
      rw [World.issuedFor, issues_afterSetArraySize]
      exact h key
  | id key' =>
      show _ = numbered key 0 (Function.update w.idMap key' (w.idMap key' + 1) key)
      by_cases hkey : key' = key
      · subst hkey
        rw [issuedFor_afterID_self, Function.update_self, numbered_succ, h key', Nat.zero_add]
      · rw [issuedFor_afterID_of_ne hkey, Function.update_of_ne (Ne.symm hkey), h key]

theorem IdLog.steps {w w' : World} (h : IdLog w) (hs : WorldSteps w w') : IdLog w' := by
  induction hs with
  | refl => exact h
  | tail _ hstep ih => exact ih.step hstep

/-- The strings a process has issued for a key. -/
theorem issuedFor_of_reachable {w : World} (h : w.Reachable) (key : PyStr) :
    w.issuedFor key = numbered key 0 (w.idMap key) := by
  obtain ⟨draws, hsteps⟩ := h
  exact (idLog_fresh draws).steps hsteps key

/-- The number of calls of `ID` for a key is what `id_map` has counted. -/
theorem count_keys_of_reachable {w : World} (h : w.Reachable) (key : PyStr) :
    w.keys.count key = w.idMap key := by
  have hlen := congrArg List.length (issuedFor_of_reachable h key)
  rw [length_numbered, World.issuedFor, List.length_map, ← List.countP_eq_length_filter] at hlen
  rw [World.keys, List.count, List.countP_map, ← hlen]
  exact List.countP_congr fun issue _ => by simp

theorem World.Reachable.steps {w w' : World} (h : w.Reachable) (hs : WorldSteps w w') :
    w'.Reachable := by
  obtain ⟨draws, hsteps⟩ := h
  exact ⟨draws, hsteps.trans hs⟩

theorem fresh_reachable (draws : Nat → Nat) : (World.fresh draws).Reachable := ⟨draws, .refl⟩

/-- A worker that has served any calls of `bulkFetch`, some of them raising, is in a
    reachable state. -/
theorem afterCalls_reachable (M : DocMerger) (env : Env) (draws : Nat → Nat)
    (history : List (PyStr × Int)) :
    (afterCalls M env (World.fresh draws) history).Reachable :=
  ⟨draws, afterCalls_steps M env _ history⟩

-- ============================================================================
-- Across keys
-- ============================================================================

/-- No key of `K` is another key of `K` with a numeral on top of it. -/
def Unextended (K : Set PyStr) : Prop := ∀ k ∈ K, ∀ j ∈ K, ¬ NumeralExtension k j

/-- The next string for a key is new, as long as no key extends another one. -/
theorem not_mem_issued {K : Set PyStr} (hK : Unextended K) {w : World} (hlog : IdLog w)
    (hkeys : ∀ key ∈ w.keys, key ∈ K) {key : PyStr} (hkey : key ∈ K) :
    key ++ str (w.idMap key + 1) ∉ w.issued := by
  intro hmem
  obtain ⟨⟨k, s⟩, hks, hs⟩ := List.mem_map.mp hmem
  have hk : k ∈ K := hkeys k (List.mem_map_of_mem hks)
  have hold : s ∈ w.issuedFor k := mem_issuedFor.mpr hks
  rw [hlog k] at hold
  obtain ⟨i, hi, rfl⟩ := mem_numbered.mp hold
  have hsame : k ++ str (0 + i + 1) = key ++ str (w.idMap key + 1) := hs
  rcases append_toDigits_eq (by omega) (by omega) hsame with ⟨rfl, hnum⟩ | hext | hext
  · omega
  · exact hK k hk key hkey hext
  · exact hK key hkey k hk hext

/-- Process steps only append to the strings issued. -/
theorem WorldSteps.keys_isPrefix {w w' : World} (h : WorldSteps w w') : w.keys <+: w'.keys := by
  induction h with
  | refl => exact List.prefix_rfl
  | tail _ hstep ih =>
      apply ih.trans
      cases hstep with
      | draw => exact List.prefix_rfl
      | id key =>
          rw [keys_afterID]
          exact List.prefix_append _ _
      | setArraySize size =>
          rw [World.keys, World.keys, issues_afterSetArraySize]

theorem issued_nodup_of_steps {K : Set PyStr} (hK : Unextended K) {w w' : World}
    (hs : WorldSteps w w') (hlog : IdLog w) (hkeys : ∀ key ∈ w'.keys, key ∈ K)
    (hnodup : w.issued.Nodup) : w'.issued.Nodup := by
  induction hs with
  | refl => exact hnodup
  | @tail u v hsteps hstep ih =>
      have hpre : u.keys <+: v.keys := WorldSteps.keys_isPrefix (.single hstep)
      have hu : ∀ key ∈ u.keys, key ∈ K := fun key hkey => hkeys key (hpre.subset hkey)
      have hulog : IdLog u := hlog.steps hsteps
      cases hstep with
      | draw => exact ih hu
      | setArraySize size =>
          rw [World.issued, issues_afterSetArraySize]
          exact ih hu
      -- the new string is none of those issued before
      | id key =>
          have hkey : key ∈ K := by
            apply hkeys key
            rw [keys_afterID]
            exact List.mem_append_right _ (List.mem_singleton_self key)
          rw [issued_afterID]
          rw [← List.concat_eq_append]
          exact (ih hu).concat (not_mem_issued hK hulog hu hkey)

/-- A sequence of calls of `ID` returns, and its results are logged under its keys. -/
theorem mapM_ID_eq_ok (keys : List PyStr) (w : World) :
    ∃ ss w', keys.mapM ID w = .ok ss w' ∧ WorldSteps w w' ∧ w'.issued = w.issued ++ ss ∧
      w'.keys = w.keys ++ keys := by
  induction keys generalizing w with
  | nil => exact ⟨[], w, rfl, .refl, (List.append_nil _).symm, (List.append_nil _).symm⟩
  | cons key keys ih =>
      obtain ⟨ss, w', hrun, hsteps, hissued, hkeys⟩ := ih (w.afterID key)
      refine ⟨(key ++ str (w.idMap key + 1)) :: ss, w', ?_, hsteps.head (.id w key), ?_, ?_⟩
      · rw [List.mapM_cons, bind_of_ok (show ID key w = .ok _ (w.afterID key) from rfl),
          bind_of_ok hrun]
        rfl
      · rw [hissued, issued_afterID, List.append_assoc]
        rfl
      · rw [hkeys, keys_afterID, List.append_assoc]
        rfl

/-- Two keys, one of them the other with a numeral on top, get the same string when the
    shorter one is called often enough. -/
theorem issued_not_nodup {w : World} (h : w.Reachable) {k j : PyStr} {n : Nat} (hkj : k ≠ j)
    (hn : 0 < n) (heq : k ++ str n = j ++ str 1) (hk : n ≤ w.keys.count k)
    (hj : 1 ≤ w.keys.count j) : ¬ w.issued.Nodup := by
  intro hnodup
  have hissue : ∀ key m, 0 < m → m ≤ w.keys.count key → (key, key ++ str m) ∈ w.issues := by
    intro key m hm hcount
    rw [count_keys_of_reachable h] at hcount
    rw [← mem_issuedFor, issuedFor_of_reachable h]
    refine mem_numbered.mpr ⟨m - 1, by omega, ?_⟩
    rw [show 0 + (m - 1) + 1 = m by omega]
  have hpair := List.inj_on_of_nodup_map hnodup (hissue k n hn hk)
    (hissue j 1 Nat.one_pos hj) heq
  exact hkj (congrArg Prod.fst hpair)

/-- The strings issued in a process, in whatever order the keys are called and whatever
    else happens in between, are pairwise distinct for every run over the keys of `K`
    exactly when no key of `K` is another one followed by a positive decimal numeral. -/
theorem ids_distinct_iff (K : Set PyStr) :
    (∀ w : World, w.Reachable → ∀ keys : List PyStr, (∀ key ∈ w.keys ++ keys, key ∈ K) →
      ∃ ss w', keys.mapM ID w = .ok ss w' ∧ (w.issued ++ ss).Nodup) ↔
      ∀ k ∈ K, ∀ j ∈ K, ¬ NumeralExtension k j := by
  constructor
  -- `n` calls with `k` reach the string that the first call with `j` returns
  · intro hdistinct k hk j hj hext
    obtain ⟨n, hn, heq⟩ := hext.collides
    obtain ⟨ss, w', hrun, hnodup⟩ := hdistinct (World.fresh fun _ => 0) (fresh_reachable _)
      (List.replicate n k ++ [j]) (by
        intro key hkey
        rcases List.mem_append.mp hkey with h | h
        · cases h
        · rcases List.mem_append.mp h with h | h
          · rwa [List.eq_of_mem_replicate h]
          · rwa [List.mem_singleton.mp h])
    obtain ⟨ss', w'', hrun', hsteps, hissued, hkeys⟩ :=
      mapM_ID_eq_ok (List.replicate n k ++ [j]) (World.fresh fun _ => 0)
    rw [hrun'] at hrun
    cases hrun
    rw [← hissued] at hnodup
    have hcount : ∀ key, w'.keys.count key =
        (List.replicate n k).count key + [j].count key := by
      intro key
      rw [hkeys, ← List.count_append]
      rfl
    refine issued_not_nodup ((fresh_reachable _).steps hsteps) hext.ne hn heq ?_ ?_ hnodup
    · rw [hcount, List.count_replicate_self]
      exact Nat.le_add_right _ _
    · rw [hcount, List.count_singleton_self]
      exact Nat.le_add_left _ _
  -- no key extends another by a numeral, and the strings of one key are numbered
  · intro hK w hw keys hkeys
    obtain ⟨ss, w', hrun, hsteps, hissued, hkeys'⟩ := mapM_ID_eq_ok keys w
    refine ⟨ss, w', hrun, ?_⟩
    obtain ⟨draws, hreach⟩ := hw
    rw [← hissued]
    rw [← hkeys'] at hkeys
    exact issued_nodup_of_steps hK (hreach.trans hsteps) (idLog_fresh draws) hkeys List.nodup_nil

/-- After eleven calls for `M`, the string `M11` is issued again by the first call for
    `M1`. -/
theorem ids_not_distinct :
    ¬ ∀ (draws : Nat → Nat) (keys ss : List PyStr) (w' : World),
      keys.mapM ID (World.fresh draws) = .ok ss w' → ss.Nodup := by
  intro h
  have hnodup := h (fun _ => 0) (List.replicate 11 ['M'] ++ [['M', '1']]) _ _ rfl
  revert hnodup
  decide

end MLocust.Faker
