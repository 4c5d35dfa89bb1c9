/-
  MLocust.Locustfile.OneCall

  The batches of a worker, against one call of `bulkFetch`.

  A call of `bulkFetch` for `m + n` documents is a call for `m` and then one for `n`
  (`bulkFetch_add`).  So the batch sizes make no difference, and neither do the
  number of users and the order they get their turns in: as long as they load the
  same model, what they generate is what one call generates in the same process
  (`worker_generates_one_call`).
-/
import MLocust.Locustfile.Identifiers

namespace MLocust.Locustfile

open Lib Lib.Program Lib.Shared Faker

variable {ι : Type} {M : DocMerger} {env : Env} {model : PyStr} {w w' p q : World}
  {docs : List Value}

/-- **Two calls are one.**  A call for `m + n` documents returns exactly when a call for `m` and
    then a call for `n` do, with the documents of both. -/
theorem bulkFetch_add (m n : Nat) :
    bulkFetch M env model (m + n : Nat) w = .ok docs w' ↔
      ∃ first u rest, bulkFetch M env model m w = .ok first u ∧
        bulkFetch M env model n u = .ok rest w' ∧ docs = first ++ rest := by
  rw [bulkFetch, bulkFetch, bulkFetch]
  by_cases hfile : env.isfile (templatePath env model)
  · rw [if_pos hfile, if_pos hfile, if_pos hfile, Int.toNat_natCast, Int.toNat_natCast,
      Int.toNat_natCast, List.range_add, List.mapM_append, List.mapM_map, bind_eq_ok]
    constructor
    · rintro ⟨first, u, hfirst, h⟩
      obtain ⟨rest, u', hrest, hdocs⟩ := bind_eq_ok.mp h
      cases hdocs
      exact ⟨first, u, rest, hfirst, hrest, rfl⟩
    · rintro ⟨first, u, rest, hfirst, hrest, rfl⟩
      exact ⟨first, u, hfirst, bind_eq_ok.mpr ⟨rest, w', hrest, rfl⟩⟩
  · rw [if_neg hfile, if_neg hfile, if_neg hfile]
    constructor
    · intro h
      cases h
    · rintro ⟨first, u, rest, h, _⟩
      cases h

/-- The number of documents that some calls ask for. -/
def asked (size : ι → Int) (calls : List (ι × Generated Value)) : Nat :=
  (calls.map fun call => (size call.1).toNat).sum

/-- A generation returns what `bulkFetch` returns. -/
theorem generateOn_eq_ok {size : ι → Int} {i : ι} {r : Generated Value}
    (hgen : (fakerUsers M env (fun _ => model) size i).generateOn w = (r, w')) :
    bulkFetch M env model (size i) w = .ok docs q ↔ r = .ok docs ∧ w' = q := by
  cases hrun : bulkFetch M env model (size i) w with
  | ok docs' u =>
      rw [generateOn_of_ok rfl hrun] at hgen
      cases hgen
      constructor
      · rintro ⟨⟩
        exact ⟨rfl, rfl⟩
      · rintro ⟨⟨⟩, rfl⟩
        rfl
  | error e u =>
      rw [generateOn_of_error rfl hrun] at hgen
      cases hgen
      constructor
      · intro h
        cases h
      · rintro ⟨h, _⟩
        cases h

theorem asked_append (size : ι → Int) (calls : List (ι × Generated Value)) (i : ι)
    (r : Generated Value) : asked size (calls ++ [(i, r)]) = asked size calls + (size i).toNat := by
  rw [asked, List.map_append, List.sum_append]
  rfl

theorem flatMap_returned_ok (calls : List (ι × Generated Value)) (i : ι) (docs : List Value) :
    (returned (calls ++ [(i, .ok docs)])).flatMap Prod.snd =
      (returned calls).flatMap Prod.snd ++ docs := by
  rw [returned, pick_append, List.flatMap_append]
  exact congrArg _ (List.append_nil docs)

/-- Generations, one after the other, are one call. -/
theorem serial_is_one_call {size : ι → Int} (hfile : env.isfile (templatePath env model))
    {calls : List (ι × Generated Value)}
    (h : Serial (fun i => (fakerUsers M env (fun _ => model) size i).client) p calls q) :
    bulkFetch M env model (asked size calls) p = .ok docs w ↔
      (∀ call ∈ calls, call.2.toOption.isSome) ∧ docs = (returned calls).flatMap Prod.snd ∧
        w = q := by
  induction h generalizing docs w with
  | nil =>
      rw [bulkFetch, if_pos hfile]
      constructor
      · intro h
        cases h
        exact ⟨List.forall_mem_nil _, rfl, rfl⟩
      · rintro ⟨_, rfl, rfl⟩
        rfl
  | @snoc calls q i _ ih =>
      obtain ⟨r, q', hgen⟩ : ∃ r q',
          (fakerUsers M env (fun _ => model) size i).generateOn q = (r, q') := ⟨_, _, rfl⟩
      have hop : ((fun i => (fakerUsers M env (fun _ => model) size i).client) i).op q = (r, q') :=
        hgen
      rw [hop, asked_append, bulkFetch_add]
      constructor
      -- one call of all documents is the call before and the last one
      · rintro ⟨first, u, rest, hfirst, hrest, rfl⟩
        obtain ⟨hok, rfl, rfl⟩ := ih.mp hfirst
        obtain ⟨rfl, rfl⟩ := (generateOn_eq_ok hgen).mp hrest
        refine ⟨fun call hcall => ?_, ?_, rfl⟩
        · rcases List.mem_append.mp hcall with hcall | hcall
          · exact hok call hcall
          · rw [List.mem_singleton.mp hcall]
            rfl
        · exact (flatMap_returned_ok calls i rest).symm
      · rintro ⟨hok, rfl, rfl⟩
        have hlast : r.toOption.isSome := hok (i, r) (by simp)
        cases r with
        | error e => cases hlast
        | ok rest =>
            refine ⟨_, q, rest, ih.mpr ⟨fun call hcall => ?_, rfl, rfl⟩,
              (generateOn_eq_ok hgen).mpr ⟨rfl, rfl⟩, ?_⟩
            · exact hok call (List.mem_append_left _ hcall)
            · exact flatMap_returned_ok calls i rest

/-- **A worker generates what one call generates.**  Whatever the interleaving, the number of
    users and their batch sizes: for users of one model, a single call of `bulkFetch` for as many
    documents returns if and only if all their generations did, and then with the same documents
    in the same order, and it leaves the process in the same state. -/
theorem worker_generates_one_call [DecidableEq ι] (M : DocMerger) (env : Env) (model : PyStr)
    (size : ι → Int) (hfile : env.isfile (templatePath env model)) (p : World)
    (s : System ι World (Generated Value) (Phase Value) (Event Value))
    (h : WorkerReaches (fakerUsers M env (fun _ => model) size) p s) (docs : List Value)
    (w : World) :
    bulkFetch M env model (asked size s.calls) p = .ok docs w ↔
      (∀ call ∈ s.calls, call.2.toOption.isSome) ∧
        docs = (returned s.calls).flatMap Prod.snd ∧ w = s.shared :=
  serial_is_one_call hfile (serial_of_steps h)

/-- Two users of the members, and one call for two documents. -/
theorem members_are_one_call : ∃ s, s.calls.length = 2 ∧ WorkerReaches
      (fakerUsers merger memberEnv (fun _ : Bool => "member.csv".toList) fun _ => 1)
      (World.fresh fun _ => 1) s ∧
    ∀ docs w, bulkFetch merger memberEnv "member.csv".toList (asked (fun _ => 1) s.calls)
        (World.fresh fun _ => 1) = .ok docs w ↔
      (∀ call ∈ s.calls, call.2.toOption.isSome) ∧
        docs = (returned s.calls).flatMap Prod.snd ∧ w = s.shared := by
  obtain ⟨s, h, _, hlen, _⟩ := exists_members
  exact ⟨s, hlen, h, worker_generates_one_call merger memberEnv "member.csv".toList _ rfl _ s h⟩

end MLocust.Locustfile
