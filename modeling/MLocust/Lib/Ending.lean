/-
  MLocust.Lib.Ending

  Programs whose ending is known before they run.

  `Ends P x r Q E`: from every state in `P`, the program `x` raises `r` and leaves a
  state in `E`; or, if `r` is `none`, it returns, with a value and a state in `Q`.
  It is a total-correctness triple with the exception as part of the statement.
  A sequence ends with the first exception of its parts (`Ends.seq`), a loop with
  the first exception of its rounds (`Ends.foldlM`, `Ends.rounds`).
-/
import MLocust.Lib.Program

namespace MLocust.Lib.Program

variable {ε σ τ α β ι : Type}

/-- From every state in `P`, the program raises `r` in `E`, or returns in `Q` if `r` is `none`. -/
def Ends (P : σ → Prop) (x : EStateM ε σ α) (r : Option ε) (Q : α → σ → Prop) (E : σ → Prop) :
    Prop :=
  ∀ s, P s → match r with
    | none => ∃ a t, x s = .ok a t ∧ Q a t
    | some e => ∃ t, x s = .error e t ∧ E t

namespace Ends

variable {P E : σ → Prop} {Q : α → σ → Prop} {R : β → σ → Prop} {x : EStateM ε σ α}
  {f : α → EStateM ε σ β} {r r' : Option ε} {e : ε}

theorem returns (h : Ends P x none Q E) {s : σ} (hs : P s) : ∃ a t, x s = .ok a t ∧ Q a t := h s hs

theorem raises (h : Ends P x (some e) Q E) {s : σ} (hs : P s) : ∃ t, x s = .error e t ∧ E t :=
  h s hs

theorem pure {a : α} (h : ∀ s, P s → Q a s) : Ends P (pure a : EStateM ε σ α) none Q E :=
  fun s hs => ⟨a, s, rfl, h s hs⟩

theorem throw (h : ∀ s, P s → E s) (e : ε) : Ends P (throw e : EStateM ε σ α) (some e) Q E :=
  fun s hs => ⟨s, rfl, h s hs⟩

/-- What raises first is what the sequence raises. -/
theorem bind_error (h : Ends P x (some e) Q E) : Ends P (x >>= f) (some e) R E := by
  intro s hs
  obtain ⟨t, ht, he⟩ := h.raises hs
  exact ⟨t, bind_of_error ht, he⟩

theorem bind (hx : Ends P x none Q E) (hf : ∀ a, Ends (Q a) (f a) r R E) :
    Ends P (x >>= f) r R E := by
  intro s hs
  obtain ⟨a, t, ht, hq⟩ := hx.returns hs
  rw [bind_of_ok ht]
  exact hf a t hq

/-- A sequence ends with the first exception of its two parts. -/
theorem seq (hx : Ends P x r Q E) (hf : ∀ a, Ends (Q a) (f a) r' R E) :
    Ends P (x >>= f) (r.or r') R E := by
  cases r with
  | none => exact hx.bind hf
  | some e => exact hx.bind_error

theorem throw_bind (h : ∀ s, P s → E s) (e : ε) (f : α → EStateM ε σ β) :
    Ends P ((MonadExcept.throw e : EStateM ε σ α) >>= f) (some e) R E :=
  fun s hs => ⟨s, rfl, h s hs⟩

/-- A value that is computed from the result makes no difference. -/
theorem map {g : α → β} (h : Ends P x r Q E) (hg : ∀ a s, Q a s → R (g a) s) :
    Ends P (x >>= fun a => Pure.pure (g a)) r R E := by
  have hall := h.seq fun a => Ends.pure (ε := ε) (E := E) (hg a)
  rwa [Option.or_none] at hall

/-- A loop ends with the first exception of its rounds. -/
theorem foldlM {J : β → σ → Prop} {g : β → ι → EStateM ε σ β} {err : ι → Option ε} {l : List ι}
    (hg : ∀ b, ∀ i ∈ l, Ends (J b) (g b i) (err i) J E) (b : β) :
    Ends (J b) (l.foldlM g b) (l.findSome? err) J E := by
  induction l generalizing b with
  | nil => exact Ends.pure fun s hs => hs
  | cons i l ih =>
      have hfirst : Ends (J b) (g b i) (err i) J E := hg b i List.mem_cons_self
      have hrest : ∀ c, Ends (J c) (l.foldlM g c) (l.findSome? err) J E :=
        ih fun c j hj => hg c j (List.mem_cons_of_mem i hj)
      have hboth := hfirst.seq hrest
      rw [List.foldlM_cons, List.findSome?_cons]
      cases herr : err i with
      | none => rwa [herr] at hboth
      | some e => rwa [herr] at hboth

/-- Rounds of one and the same program: the first one decides. -/
theorem rounds (hx : Ends P x r (fun _ => P) E) (n : Nat) :
    Ends P ((List.range n).mapM fun _ => x) (if n = 0 then none else r)
      (fun as s => as.length = n ∧ P s) E := by
  have hall : ∀ l : List Nat, Ends P x none (fun _ => P) E →
      Ends P (l.mapM fun _ => x) none (fun as s => as.length = l.length ∧ P s) E := by
    intro l hx
    induction l with
    | nil => exact Ends.pure fun s hs => ⟨rfl, hs⟩
    | cons i l ih =>
        rw [List.mapM_cons]
        refine hx.bind fun a => ih.bind fun as => Ends.pure fun s hs => ⟨?_, hs.2⟩
        rw [List.length_cons, List.length_cons, hs.1]
  cases n with
  | zero => exact Ends.pure fun s hs => ⟨rfl, hs⟩
  | succ n =>
      rw [if_neg (Nat.succ_ne_zero n)]
      cases r with
      | none =>
          have h := hall (List.range (n + 1)) hx
          rwa [List.length_range] at h
      -- the first round raises already
      | some e =>
          rw [List.range_succ_eq_map, List.mapM_cons]
          exact hx.bind_error

theorem zoom {get : τ → σ} {put : σ → τ → τ} {P E : τ → Prop} {R : α → τ → Prop}
    {P₀ E₀ : σ → Prop} (hget : ∀ s, P s → P₀ (get s)) (hput : ∀ s a t, P s → Q a t → R a (put t s))
    (herr : ∀ s t, P s → E₀ t → E (put t s)) (h : Ends P₀ x r Q E₀) :
    Ends P (zoom get put x) r R E := by
  intro s hs
  rw [Program.zoom]
  cases r with
  | none =>
      obtain ⟨a, t, hx, hq⟩ := h.returns (hget s hs)
      rw [hx]
      exact ⟨a, put t s, rfl, hput s a t hs hq⟩
  | some e =>
      obtain ⟨t, hx, he⟩ := h.raises (hget s hs)
      rw [hx]
      exact ⟨put t s, rfl, herr s t hs he⟩

end Ends

end MLocust.Lib.Program
