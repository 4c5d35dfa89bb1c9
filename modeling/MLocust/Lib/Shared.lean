/-
  MLocust.Lib.Shared

  Clients that share a state, in any interleaving.

  A client moves on its own, or it performs an atomic operation on the shared state
  and goes on with the result.  A `System` holds the shared state, the state of
  every client and the events of all of them; a step is a move of any one client.

  However the moves are interleaved, the shared state is the one that the operations
  lead to when they are performed one after the other, with the results the clients
  got (`serial_of_steps`); and each client has done what it does alone on the
  results it got (`solo_of_steps`).
-/
import Mathlib.Data.List.Perm.Subperm
import Mathlib.Logic.Function.Basic
import Mathlib.Logic.Relation

namespace MLocust.Lib.Shared

variable {ι π ρ τ E α β : Type}

/-- A client with the states `τ` that logs the events `E`, and its operation on the shared
    state `π`. -/
structure Client (π ρ τ E : Type) where
  op : π → ρ × π
  /-- the move that performs the operation, with the result it gets -/
  enter : τ → ρ → List E → τ → Prop
  /-- a move that leaves the shared state alone -/
  own : τ → List E → τ → Prop

/-- The shared state and the clients, with everything that was done so far. -/
structure System (ι π ρ τ E : Type) where
  shared : π
  state : ι → τ
  /-- who performed an operation, and with which result.  A history variable. -/
  calls : List (ι × ρ)
  events : List (ι × E)

/-- Nothing was done yet. -/
def System.start (shared : π) (state : ι → τ) : System ι π ρ τ E := ⟨shared, state, [], []⟩

/-- A part of what the clients have to do with, with the clients. -/
def pick (f : α → Option β) (l : List (ι × α)) : List (ι × β) :=
  l.filterMap fun x => (f x.2).map fun b => (x.1, b)

theorem pick_append (f : α → Option β) (l m : List (ι × α)) :
    pick f (l ++ m) = pick f l ++ pick f m := List.filterMap_append

section Of

variable [DecidableEq ι]

/-- What one client has to do with, in order. -/
def of (i : ι) (l : List (ι × α)) : List α :=
  l.filterMap fun x => if x.1 = i then some x.2 else none

theorem of_append (i : ι) (l m : List (ι × α)) : of i (l ++ m) = of i l ++ of i m :=
  List.filterMap_append

@[simp] theorem of_singleton_self (i : ι) (a : α) : of i [(i, a)] = [a] := by simp [of]

theorem of_singleton_of_ne {i j : ι} (h : j ≠ i) (a : α) : of i [(j, a)] = [] := by simp [of, h]

@[simp] theorem of_map_self (i : ι) (as : List α) : of i (as.map fun a => (i, a)) = as := by
  induction as with
  | nil => rfl
  | cons a as ih =>
      have hsplit : ((a :: as).map fun a => (i, a)) = [(i, a)] ++ as.map fun a => (i, a) := rfl
      rw [hsplit, of_append, ih, of_singleton_self]
      rfl

theorem of_map_of_ne {i j : ι} (h : j ≠ i) (as : List α) :
    of i (as.map fun a => (j, a)) = [] := by
  induction as with
  | nil => rfl
  | cons a as ih =>
      have hsplit : ((a :: as).map fun a => (j, a)) = [(j, a)] ++ as.map fun a => (j, a) := rfl
      rw [hsplit, of_append, ih, of_singleton_of_ne h]
      rfl

theorem of_cons_self (i : ι) (a : α) (l : List (ι × α)) : of i ((i, a) :: l) = a :: of i l := by
  simp [of]

theorem of_cons_of_ne {i j : ι} (h : j ≠ i) (a : α) (l : List (ι × α)) :
    of i ((j, a) :: l) = of i l := by simp [of, h]

theorem of_pick (i : ι) (f : α → Option β) (l : List (ι × α)) :
    of i (pick f l) = (of i l).filterMap f := by
  rw [of, pick, of, List.filterMap_filterMap, List.filterMap_filterMap]
  congr 1
  funext x
  by_cases hx : x.1 = i
  · cases hf : f x.2 with
    | none => simp [hx, hf]
    | some b => simp [hx, hf]
  · cases f x.2 with
    | none => simp [hx]
    | some b => simp [hx]

theorem mem_of {i : ι} {l : List (ι × α)} {a : α} (h : a ∈ of i l) : (i, a) ∈ l := by
  obtain ⟨⟨j, b⟩, hmem, hb⟩ := List.mem_filterMap.mp h
  by_cases hj : j = i
  · have hsome : (if j = i then some b else none) = some a := hb
    rw [if_pos hj] at hsome
    cases hsome
    exact hj ▸ hmem
  · have hnone : (if j = i then some b else none) = some a := hb
    rw [if_neg hj] at hnone
    cases hnone

theorem of_flatMap_sublist (f : ι → α → List β) (i : ι) (l : List (ι × α)) :
    ((of i l).flatMap (f i)).Sublist (l.flatMap fun x => f x.1 x.2) := by
  induction l with
  | nil => exact .slnil
  | cons x l ih =>
      obtain ⟨j, a⟩ := x
      rw [List.flatMap_cons]
      by_cases hj : j = i
      · subst hj
        rw [of_cons_self, List.flatMap_cons]
        exact ih.append_left _
      · rw [of_cons_of_ne hj]
        exact ih.trans (List.sublist_append_right _ _)

theorem count_eq_count_of [DecidableEq α] (l : List (ι × α)) (i : ι) (a : α) :
    l.count (i, a) = (of i l).count a := by
  induction l with
  | nil => rfl
  | cons x l ih =>
      obtain ⟨j, b⟩ := x
      by_cases hj : j = i
      · subst hj
        rw [of_cons_self, List.count_cons, List.count_cons, ih]
        simp
      · rw [of_cons_of_ne hj, List.count_cons_of_ne (by simp [hj]), ih]

open Classical in
/-- What holds of each client's part, that it is found in the other list, holds of the whole. -/
theorem subperm_of_forall_of {l m : List (ι × α)} (h : ∀ i, (of i l).Subperm (of i m)) :
    l.Subperm m := by
  rw [List.subperm_ext_iff]
  rintro ⟨i, a⟩ _
  rw [count_eq_count_of, count_eq_count_of]
  exact (h i).count_le a

end Of

variable [DecidableEq ι] (clients : ι → Client π ρ τ E)

/-- A move of any one client. -/
inductive Step : System ι π ρ τ E → System ι π ρ τ E → Prop
  | enter {s : System ι π ρ τ E} {i : ι} {log : List E} {t : τ} :
      (clients i).enter (s.state i) ((clients i).op s.shared).1 log t →
      Step s ⟨((clients i).op s.shared).2, Function.update s.state i t,
        s.calls ++ [(i, ((clients i).op s.shared).1)], s.events ++ log.map fun e => (i, e)⟩
  | own {s : System ι π ρ τ E} {i : ι} {log : List E} {t : τ} :
      (clients i).own (s.state i) log t →
      Step s ⟨s.shared, Function.update s.state i t, s.calls, s.events ++ log.map fun e => (i, e)⟩

/-- Any number of moves, in any order. -/
abbrev Steps : System ι π ρ τ E → System ι π ρ τ E → Prop := Relation.ReflTransGen (Step clients)

/-- The operations one after the other: who performs them and with which results, and the shared
    state they lead to. -/
inductive Serial (p : π) : List (ι × ρ) → π → Prop
  | nil : Serial p [] p
  | snoc {calls : List (ι × ρ)} {q : π} (i : ι) : Serial p calls q →
      Serial p (calls ++ [(i, ((clients i).op q).1)]) ((clients i).op q).2

/-- What a client does alone, when its operation has the given results. -/
inductive Solo (c : Client π ρ τ E) (t₀ : τ) : List ρ → List E → τ → Prop
  | start : Solo c t₀ [] [] t₀
  | enter {rs : List ρ} {es log : List E} {r : ρ} {t t' : τ} : Solo c t₀ rs es t →
      c.enter t r log t' → Solo c t₀ (rs ++ [r]) (es ++ log) t'
  | own {rs : List ρ} {es log : List E} {t t' : τ} : Solo c t₀ rs es t →
      c.own t log t' → Solo c t₀ rs (es ++ log) t'

variable {clients} {shared : π} {state : ι → τ} {s : System ι π ρ τ E}

/-- An operation with a known outcome. -/
theorem Step.of_op {i : ι} {r : ρ} {q : π} {log : List E} {t : τ}
    (hop : (clients i).op s.shared = (r, q)) (henter : (clients i).enter (s.state i) r log t) :
    Step clients s ⟨q, Function.update s.state i t, s.calls ++ [(i, r)],
      s.events ++ log.map fun e => (i, e)⟩ := by
  have hstep : Step clients s ⟨((clients i).op s.shared).2, Function.update s.state i t,
      s.calls ++ [(i, ((clients i).op s.shared).1)], s.events ++ log.map fun e => (i, e)⟩ := by
    apply Step.enter
    rw [hop]
    exact henter
  rw [hop] at hstep
  exact hstep

/-- **Serializability.**  Whatever the interleaving, the shared state is the one that the
    operations lead to one after the other. -/
theorem serial_of_steps (h : Steps clients (.start shared state) s) :
    Serial clients shared s.calls s.shared := by
  induction h with
  | refl => exact .nil
  | tail _ hstep ih =>
      cases hstep with
      | enter _ => exact .snoc _ ih
      | own _ => exact ih

omit [DecidableEq ι] in
/-- What every operation keeps holds of the shared state, and each result is that of an operation
    on a state of which it holds. -/
theorem Serial.invariant {I : π → Prop} {Q : ι → ρ → Prop} {p q : π} {calls : List (ι × ρ)}
    (hop : ∀ i p, I p → Q i ((clients i).op p).1 ∧ I ((clients i).op p).2) (hp : I p)
    (h : Serial clients p calls q) : I q ∧ ∀ call ∈ calls, Q call.1 call.2 := by
  induction h with
  | nil => exact ⟨hp, List.forall_mem_nil _⟩
  | @snoc calls q i _ ih =>
      obtain ⟨hq, hcalls⟩ := ih
      obtain ⟨hresult, hnext⟩ := hop i q hq
      refine ⟨hnext, fun call hcall => ?_⟩
      rcases List.mem_append.mp hcall with hcall | hcall
      · exact hcalls call hcall
      · rw [List.mem_singleton.mp hcall]
        exact hresult

/-- **Isolation.**  Whatever the others do, each client has done what it does alone on the results
    its own operations had. -/
theorem solo_of_steps (h : Steps clients (.start shared state) s) (i : ι) :
    Solo (clients i) (state i) (of i s.calls) (of i s.events) (s.state i) := by
  induction h with
  | refl => exact .start
  | @tail b _ _ hstep ih =>
      cases hstep with
      -- a call of the shared operation, by this client or another
      | @enter j log t henter =>
          show Solo _ _ (of i (_ ++ [(j, _)])) (of i (_ ++ _)) (Function.update b.state j t i)
          by_cases hij : j = i
          · subst hij
            rw [of_append, of_singleton_self, of_append, of_map_self, Function.update_self]
            exact .enter ih henter
          · rw [of_append, of_singleton_of_ne hij, List.append_nil, of_append, of_map_of_ne hij,
              List.append_nil, Function.update_of_ne (Ne.symm hij)]
            exact ih
      -- a step of a client's own
      | @own j log t hown =>
          show Solo _ _ (of i _) (of i (_ ++ _)) (Function.update b.state j t i)
          by_cases hij : j = i
          · subst hij
            rw [of_append, of_map_self, Function.update_self]
            exact .own ih hown
          · rw [of_append, of_map_of_ne hij, List.append_nil,
              Function.update_of_ne (Ne.symm hij)]
            exact ih

end MLocust.Lib.Shared
