/-
  MLocust.Lib.Program

  Programs that thread a state and may raise, in Lean's `EStateM ε σ`.  A raise
  keeps the state reached so far, as an exception does in a language with
  mutable variables.

  Four kinds of rules are provided:

  - inversion: what a sequence that returned (or raised) went through
    (`bind_eq_ok`, `bind_eq_error`);
  - `Guarantees P x`: every run of `x`, returning or raising, relates its start
    state to its end state by `P`;
  - `Raises Q x`: every error of `x` satisfies `Q`;
  - `Related Φ R x y`: two programs run from `Φ`-related states end alike, with
    `R`-related results and `Φ`-related states.
-/
import Mathlib.Data.List.Forall2
import Mathlib.Logic.Function.Basic

namespace MLocust.Lib.Program

open EStateM (Result)

variable {ε σ τ α β γ δ ι : Type}

-- ============================================================================
-- Inversion
-- ============================================================================

theorem bind_apply (x : EStateM ε σ α) (f : α → EStateM ε σ β) (s : σ) :
    (x >>= f) s = match x s with
      | .ok a t => f a t
      | .error e t => .error e t := rfl

@[simp] theorem pure_apply (a : α) (s : σ) : (pure a : EStateM ε σ α) s = .ok a s := rfl

@[simp] theorem throw_apply (e : ε) (s : σ) :
    (throw e : EStateM ε σ α) s = .error e s := rfl

@[simp] theorem get_apply (s : σ) : (get : EStateM ε σ σ) s = .ok s s := rfl

theorem bind_of_ok {x : EStateM ε σ α} {f : α → EStateM ε σ β} {s t : σ} {a : α}
    (h : x s = .ok a t) : (x >>= f) s = f a t := by
  rw [bind_apply, h]

theorem bind_of_error {x : EStateM ε σ α} {f : α → EStateM ε σ β} {s t : σ} {e : ε}
    (h : x s = .error e t) : (x >>= f) s = .error e t := by
  rw [bind_apply, h]

/-- A handler is not run when the program returns. -/
theorem tryCatch_of_ok {x : EStateM ε σ α} {f : ε → EStateM ε σ α} {s t : σ} {a : α}
    (h : x s = .ok a t) : tryCatch x f s = .ok a t := by
  show EStateM.tryCatch x f s = _
  rw [EStateM.tryCatch, h]

/-- A handler runs in the state in which the program raised. -/
theorem tryCatch_of_error {x : EStateM ε σ α} {f : ε → EStateM ε σ α} {s t : σ} {e : ε}
    (h : x s = .error e t) : tryCatch x f s = f e t := by
  show EStateM.tryCatch x f s = _
  rw [EStateM.tryCatch, h]
  rfl

/-- A sequence returned exactly when both of its parts did. -/
theorem bind_eq_ok {x : EStateM ε σ α} {f : α → EStateM ε σ β} {s u : σ} {b : β} :
    (x >>= f) s = .ok b u ↔ ∃ a t, x s = .ok a t ∧ f a t = .ok b u := by
  rw [bind_apply]
  cases hx : x s with
  | ok a t => simp
  | error e t => simp

/-- A sequence raised exactly when its first part did, or its second after it. -/
theorem bind_eq_error {x : EStateM ε σ α} {f : α → EStateM ε σ β} {s u : σ} {e : ε} :
    (x >>= f) s = .error e u ↔
      x s = .error e u ∨ ∃ a t, x s = .ok a t ∧ f a t = .error e u := by
  rw [bind_apply]
  cases hx : x s with
  | ok a t => simp
  | error e t => simp

theorem mapM_flatMap (l : List α) (g : α → List β) (f : β → EStateM ε σ γ) :
    (l.flatMap g).mapM f = (do
      let css ← l.mapM fun a => (g a).mapM f
      pure css.flatten) := by
  induction l with
  | nil => rfl
  | cons a l ih =>
      rw [List.flatMap_cons, List.mapM_append, List.mapM_cons, ih]
      simp only [bind_assoc, pure_bind, List.flatten_cons]

/-- If something does not hold before `n` rounds of `x` and holds after them, one of the rounds
    brought it about.  `p` is what holds of the state in which `x` brings about `q`. -/
theorem exists_round {x : EStateM ε σ α} {p q : σ → Prop}
    (hround : ∀ {s t a}, x s = .ok a t → q t → p s ∨ q s) {n : Nat} {s t : σ} {as : List α}
    (h : ((List.range n).mapM fun _ => x) s = .ok as t) (hs : ¬ q s) (ht : q t) :
    ∃ i < n, ∃ bs u a v, ((List.range i).mapM fun _ => x) s = .ok bs u ∧ p u ∧
      x u = .ok a v ∧ q v := by
  induction n generalizing t as with
  | zero =>
      cases h
      exact absurd ht hs
  | succ n ih =>
      rw [List.range_succ, List.mapM_append, List.mapM_cons, List.mapM_nil] at h
      obtain ⟨bs, u, hbs, h⟩ := bind_eq_ok.mp h
      obtain ⟨cs, v, hlast, h⟩ := bind_eq_ok.mp h
      cases h
      obtain ⟨a, v', ha, h⟩ := bind_eq_ok.mp hlast
      cases h
      rcases hround ha ht with hp | hq
      · exact ⟨n, Nat.lt_succ_self n, bs, u, a, _, hbs, hp, ha, ht⟩
      · obtain ⟨i, hi, hrest⟩ := ih hbs hq
        exact ⟨i, Nat.lt_succ_of_lt hi, hrest⟩

/-- What every round keeps holds in the end, and what it returns under it holds of all that the
    rounds return. -/
theorem mapM_invariant {x : EStateM ε σ α} {I : σ → Prop} {Q : α → Prop}
    (hx : ∀ {s a t}, I s → x s = .ok a t → Q a ∧ I t) (l : List ι) {s t : σ} {as : List α}
    (hs : I s) (h : (l.mapM fun _ => x) s = .ok as t) : (∀ a ∈ as, Q a) ∧ I t := by
  induction l generalizing s as with
  | nil =>
      cases h
      exact ⟨List.forall_mem_nil _, hs⟩
  | cons i l ih =>
      rw [List.mapM_cons] at h
      obtain ⟨a, u, ha, h⟩ := bind_eq_ok.mp h
      obtain ⟨rest, u', hrest, hcons⟩ := bind_eq_ok.mp h
      cases hcons
      obtain ⟨hQ, hu⟩ := hx hs ha
      obtain ⟨hrestQ, ht⟩ := ih hu hrest
      exact ⟨List.forall_mem_cons.mpr ⟨hQ, hrestQ⟩, ht⟩

/-- What each round of a program returns holds of all that the rounds return. -/
theorem forall_mem_mapM {x : EStateM ε σ α} {Q : α → Prop} (hx : ∀ {s a t}, x s = .ok a t → Q a)
    (l : List ι) {s t : σ} {as : List α} (h : (l.mapM fun _ => x) s = .ok as t) : ∀ a ∈ as, Q a :=
  (mapM_invariant (I := fun _ => True) (fun _ ha => ⟨hx ha, trivial⟩) l trivial h).1

-- ============================================================================
-- Running a program on a part of the state
-- ============================================================================

/-- Run `x` on the part of the state that `get` reads and `put` writes. -/
def zoom (get : σ → τ) (put : τ → σ → σ) (x : EStateM ε τ α) : EStateM ε σ α := fun s =>
  match x (get s) with
  | .ok a t => .ok a (put t s)
  | .error e t => .error e (put t s)

theorem zoom_eq_ok {get : σ → τ} {put : τ → σ → σ} {x : EStateM ε τ α} {s u : σ} {a : α} :
    zoom get put x s = .ok a u ↔ ∃ t, x (get s) = .ok a t ∧ u = put t s := by
  rw [zoom]
  cases hx : x (get s) with
  | ok b t => simp [eq_comm]
  | error e t => simp

theorem zoom_pure {get : σ → τ} {put : τ → σ → σ} (hpg : ∀ s, put (get s) s = s) (a : α) :
    zoom get put (pure a : EStateM ε τ α) = pure a := by
  funext s
  show Result.ok a (put (get s) s) = .ok a s
  rw [hpg]

theorem zoom_bind {get : σ → τ} {put : τ → σ → σ} (hgp : ∀ t s, get (put t s) = t)
    (hpp : ∀ t u s, put u (put t s) = put u s) (x : EStateM ε τ α) (f : α → EStateM ε τ β) :
    zoom get put (x >>= f) = zoom get put x >>= fun a => zoom get put (f a) := by
  funext s
  rw [bind_apply, zoom, zoom, bind_apply]
  cases x (get s) with
  | error e t => rfl
  | ok a t =>
      show _ = zoom get put (f a) (put t s)
      rw [zoom, hgp]
      show (match f a t with
        | .ok b u => Result.ok b (put u s)
        | .error e u => Result.error e (put u s)) = _
      cases f a t with
      | ok b u => exact congrArg (Result.ok b) (hpp t u s).symm
      | error e u => exact congrArg (Result.error e) (hpp t u s).symm

theorem zoom_mapM {get : σ → τ} {put : τ → σ → σ} (hpg : ∀ s, put (get s) s = s)
    (hgp : ∀ t s, get (put t s) = t) (hpp : ∀ t u s, put u (put t s) = put u s)
    (f : α → EStateM ε τ β) (l : List α) :
    zoom get put (l.mapM f) = l.mapM fun a => zoom get put (f a) := by
  induction l with
  | nil => exact zoom_pure hpg []
  | cons a l ih =>
      rw [List.mapM_cons, List.mapM_cons, zoom_bind hgp hpp]
      simp only [zoom_bind hgp hpp, ih, zoom_pure hpg]

/-- Run a computation that raises but has no state. -/
def fromExcept (x : Except ε α) : EStateM ε σ α :=
  match x with
  | .ok a => pure a
  | .error e => throw e

@[simp] theorem fromExcept_ok (a : α) : (fromExcept (.ok a) : EStateM ε σ α) = pure a := rfl

@[simp] theorem fromExcept_error (e : ε) :
    (fromExcept (.error e) : EStateM ε σ α) = throw e := rfl

theorem fromExcept_eq_ok {x : Except ε α} {s t : σ} {a : α} :
    (fromExcept x : EStateM ε σ α) s = .ok a t ↔ x = .ok a ∧ s = t := by
  cases x with
  | ok b => simp
  | error e => simp

-- ============================================================================
-- Guarantees: one relation between the start and the end of every run
-- ============================================================================

/-- Every run of `x`, returning or raising, takes its start state to an end state
    related to it by `P`. -/
def Guarantees (P : σ → σ → Prop) (x : EStateM ε σ α) : Prop :=
  ∀ s, match x s with
    | .ok _ t => P s t
    | .error _ t => P s t

namespace Guarantees

variable {P : σ → σ → Prop} {x : EStateM ε σ α} {f : α → EStateM ε σ β}

theorem of_ok (h : Guarantees P x) {s t : σ} {a : α} (hx : x s = .ok a t) : P s t := by
  have hs := h s
  rw [hx] at hs
  exact hs

theorem of_error (h : Guarantees P x) {s t : σ} {e : ε} (hx : x s = .error e t) : P s t := by
  have hs := h s
  rw [hx] at hs
  exact hs

theorem mono {P' : σ → σ → Prop} (h : Guarantees P x) (hP : ∀ s t, P s t → P' s t) :
    Guarantees P' x := by
  intro s
  cases hx : x s with
  | ok a t => exact hP s t (h.of_ok hx)
  | error e t => exact hP s t (h.of_error hx)

theorem pure (hrefl : ∀ s, P s s) (a : α) : Guarantees P (pure a : EStateM ε σ α) :=
  fun s => hrefl s

theorem throw (hrefl : ∀ s, P s s) (e : ε) : Guarantees P (throw e : EStateM ε σ α) :=
  fun s => hrefl s

theorem fromExcept (hrefl : ∀ s, P s s) (r : Except ε α) :
    Guarantees P (fromExcept r : EStateM ε σ α) := by
  cases r with
  | ok a => exact Guarantees.pure hrefl a
  | error e => exact Guarantees.throw hrefl e

theorem bind (htrans : ∀ {s t u}, P s t → P t u → P s u)
    (hx : Guarantees P x) (hf : ∀ a, Guarantees P (f a)) : Guarantees P (x >>= f) := by
  intro s
  rw [bind_apply]
  cases hxs : x s with
  | ok a t =>
      have hst := hx.of_ok hxs
      show match f a t with
        | .ok _ u => P s u
        | .error _ u => P s u
      cases hft : f a t with
      | ok b u => exact htrans hst ((hf a).of_ok hft)
      | error e u => exact htrans hst ((hf a).of_error hft)
  | error e t => exact hx.of_error hxs

theorem mapM (hrefl : ∀ s, P s s) (htrans : ∀ {s t u}, P s t → P t u → P s u)
    (hf : ∀ a, Guarantees P (f a)) (l : List α) : Guarantees P (l.mapM f) := by
  induction l with
  | nil => exact Guarantees.pure hrefl []
  | cons a l ih =>
      rw [List.mapM_cons]
      exact bind htrans (hf a) fun b => bind htrans ih fun bs => Guarantees.pure hrefl _

theorem foldlM {g : β → α → EStateM ε σ β} (hrefl : ∀ s, P s s)
    (htrans : ∀ {s t u}, P s t → P t u → P s u)
    (hg : ∀ b a, Guarantees P (g b a)) (l : List α) (b : β) :
    Guarantees P (l.foldlM g b) := by
  induction l generalizing b with
  | nil => exact Guarantees.pure hrefl b
  | cons a l ih => exact bind htrans (hg b a) fun c => ih c

theorem zoom {get : τ → σ} {put : σ → τ → τ} {Q : τ → τ → Prop}
    (hQ : ∀ s t, P (get s) t → Q s (put t s)) (h : Guarantees P x) :
    Guarantees Q (zoom get put x) := by
  intro s
  rw [Program.zoom]
  cases hx : x (get s) with
  | ok a t => exact hQ s t (h.of_ok hx)
  | error e t => exact hQ s t (h.of_error hx)

end Guarantees

-- ============================================================================
-- Raises: what every error of a program looks like
-- ============================================================================

/-- Every error of `x`, with the state it is raised in, satisfies `Q`. -/
def Raises (Q : ε → σ → Prop) (x : EStateM ε σ α) : Prop :=
  ∀ s e t, x s = .error e t → Q e t

namespace Raises

variable {Q : ε → σ → Prop} {x : EStateM ε σ α} {f : α → EStateM ε σ β}

theorem pure (a : α) : Raises Q (pure a : EStateM ε σ α) := by
  intro s e t h
  cases h

theorem throw {e : ε} (h : ∀ s, Q e s) : Raises Q (throw e : EStateM ε σ α) := by
  intro s e' t he
  cases he
  exact h s

theorem bind (hx : Raises Q x) (hf : ∀ a, Raises Q (f a)) : Raises Q (x >>= f) := by
  intro s e t h
  rcases bind_eq_error.mp h with he | ⟨a, u, _, he⟩
  · exact hx s e t he
  · exact hf a u e t he

theorem mapM (hf : ∀ a, Raises Q (f a)) (l : List α) : Raises Q (l.mapM f) := by
  induction l with
  | nil => exact Raises.pure []
  | cons a l ih =>
      rw [List.mapM_cons]
      exact bind (hf a) fun b => bind ih fun bs => Raises.pure _

theorem zoom {get : τ → σ} {put : σ → τ → τ} {R : ε → τ → Prop}
    (hR : ∀ e s t, Q e t → R e (put t s)) (h : Raises Q x) :
    Raises R (zoom get put x) := by
  intro s e t he
  rw [Program.zoom] at he
  cases hx : x (get s) with
  | ok a u =>
      rw [hx] at he
      cases he
  | error e' u =>
      rw [hx] at he
      cases he
      exact hR e s u (h _ _ _ hx)

end Raises

-- ============================================================================
-- Two programs that end alike
-- ============================================================================

/-- Two results that both returned, with `R`-related values, or both raised; either
    way in `Φ`-related states. -/
inductive Alike (Φ : σ → τ → Prop) (R : α → β → Prop) :
    Result ε σ α → Result ε τ β → Prop
  | ok {a b s t} : R a b → Φ s t → Alike Φ R (.ok a s) (.ok b t)
  | error {e e' s t} : Φ s t → Alike Φ R (.error e s) (.error e' t)

/-- From `Φ`-related states the programs `x` and `y` end alike. -/
def Related (Φ : σ → τ → Prop) (R : α → β → Prop) (x : EStateM ε σ α)
    (y : EStateM ε τ β) : Prop :=
  ∀ s t, Φ s t → Alike Φ R (x s) (y t)

namespace Related

variable {Φ : σ → τ → Prop} {R : α → β → Prop} {S : γ → δ → Prop}

theorem of_ok {x : EStateM ε σ α} {y : EStateM ε τ β} (h : Related Φ R x y)
    {s s' : σ} {t : τ} {a : α} (hst : Φ s t) (hx : x s = .ok a s') :
    ∃ b t', y t = .ok b t' ∧ R a b ∧ Φ s' t' := by
  have hres := h s t hst
  rw [hx] at hres
  cases hy : y t with
  | ok b t' =>
      rw [hy] at hres
      cases hres with
      | ok hR hΦ => exact ⟨b, t', rfl, hR, hΦ⟩
  | error e t' =>
      rw [hy] at hres
      cases hres

theorem of_error {x : EStateM ε σ α} {y : EStateM ε τ β} (h : Related Φ R x y)
    {s s' : σ} {t : τ} {e : ε} (hst : Φ s t) (hx : x s = .error e s') :
    ∃ e' t', y t = .error e' t' ∧ Φ s' t' := by
  have hres := h s t hst
  rw [hx] at hres
  cases hy : y t with
  | ok b t' =>
      rw [hy] at hres
      cases hres
  | error e' t' =>
      rw [hy] at hres
      cases hres with
      | error hΦ => exact ⟨e', t', rfl, hΦ⟩

theorem flip {x : EStateM ε σ α} {y : EStateM ε τ β} (h : Related Φ R x y) :
    Related (fun t s => Φ s t) (fun b a => R a b) y x := by
  intro t s hst
  have hres := h s t hst
  cases hx : x s with
  | ok a s' =>
      obtain ⟨b, t', hy, hR, hΦ⟩ := h.of_ok hst hx
      rw [hy]
      exact .ok hR hΦ
  | error e s' =>
      obtain ⟨e', t', hy, hΦ⟩ := h.of_error hst hx
      rw [hy]
      exact .error hΦ

theorem refl (x : EStateM ε σ α) : Related Eq Eq x x := by
  rintro s t rfl
  generalize x s = r
  cases r with
  | ok a t => exact .ok rfl rfl
  | error e t => exact .error rfl

theorem pure {a : α} {b : β} (h : R a b) :
    Related Φ R (pure a : EStateM ε σ α) (pure b : EStateM ε τ β) :=
  fun _ _ hst => .ok h hst

theorem throw (e e' : ε) :
    Related Φ R (throw e : EStateM ε σ α) (throw e' : EStateM ε τ β) :=
  fun _ _ hst => .error hst

/-- Two runs that agree on whether they return. -/
theorem fromExcept {r : Except ε α} {r' : Except ε β}
    (h : ∀ a, r = .ok a → ∃ b, r' = .ok b ∧ R a b) (h' : ∀ b, r' = .ok b → ∃ a, r = .ok a) :
    Related Φ R (fromExcept r : EStateM ε σ α) (fromExcept r' : EStateM ε τ β) := by
  cases r with
  | ok a =>
      obtain ⟨b, rfl, hab⟩ := h a rfl
      exact Related.pure hab
  | error e =>
      cases r' with
      | ok b =>
          obtain ⟨a, ha⟩ := h' b rfl
          cases ha
      | error e' => exact Related.throw e e'

theorem zoom {σ' τ' : Type} {Ψ : σ' → τ' → Prop} {get : σ' → σ} {put : σ → σ' → σ'}
    {get' : τ' → τ} {put' : τ → τ' → τ'} {x : EStateM ε σ α} {y : EStateM ε τ β}
    (hget : ∀ s t, Ψ s t → Φ (get s) (get' t))
    (hput : ∀ s t u v, Ψ s t → Φ u v → Ψ (put u s) (put' v t)) (h : Related Φ R x y) :
    Related Ψ R (zoom get put x) (zoom get' put' y) := by
  intro s t hst
  have hres := h _ _ (hget s t hst)
  rw [Program.zoom, Program.zoom]
  generalize x (get s) = r at hres ⊢
  generalize y (get' t) = r' at hres ⊢
  cases hres with
  | ok hab hΦ => exact .ok hab (hput s t _ _ hst hΦ)
  | error hΦ => exact .error (hput s t _ _ hst hΦ)

theorem bind {x : EStateM ε σ α} {y : EStateM ε τ β} {f : α → EStateM ε σ γ}
    {g : β → EStateM ε τ δ} (hxy : Related Φ R x y)
    (hfg : ∀ a b, R a b → Related Φ S (f a) (g b)) :
    Related Φ S (x >>= f) (y >>= g) := by
  intro s t hst
  rw [bind_apply, bind_apply]
  have hres := hxy s t hst
  generalize x s = r at hres ⊢
  generalize y t = r' at hres ⊢
  cases hres with
  | ok hab hΦ => exact hfg _ _ hab _ _ hΦ
  | error hΦ => exact .error hΦ

theorem mapM {f : α → EStateM ε σ γ} {g : β → EStateM ε τ δ}
    (hfg : ∀ a b, R a b → Related Φ S (f a) (g b)) {l : List α} {m : List β}
    (hlm : List.Forall₂ R l m) : Related Φ (List.Forall₂ S) (l.mapM f) (m.mapM g) := by
  induction hlm with
  | nil => exact Related.pure .nil
  | cons hab _ ih =>
      rw [List.mapM_cons, List.mapM_cons]
      refine (hfg _ _ hab).bind fun c d hcd => ih.bind fun cs ds hcs => ?_
      exact Related.pure (.cons hcd hcs)

/-- Two loops over the same indices, with results that come from one function of the
    index. -/
theorem mapM_choose [Inhabited ι] [DecidableEq α] {X : ι → γ} {Y : ι → δ}
    {f : α → EStateM ε σ γ} {g : α → EStateM ε τ δ}
    (hfg : ∀ a, Related Φ (fun x y => ∃ i, x = X i ∧ y = Y i) (f a) (g a)) {l : List α}
    (hl : l.Nodup) :
    Related Φ (fun xs ys => ∃ F : α → ι, xs = l.map (fun a => X (F a)) ∧
      ys = l.map fun a => Y (F a)) (l.mapM f) (l.mapM g) := by
  induction l with
  | nil => exact Related.pure ⟨fun _ => default, rfl, rfl⟩
  | cons a l ih =>
      obtain ⟨ha, hl⟩ := List.nodup_cons.mp hl
      rw [List.mapM_cons, List.mapM_cons]
      refine (hfg a).bind fun x y hxy => (ih hl).bind fun xs ys hxs => Related.pure ?_
      obtain ⟨i, rfl, rfl⟩ := hxy
      obtain ⟨F, rfl, rfl⟩ := hxs
      -- the other rounds are of other indices, so their choices stay
      have hF : ∀ b ∈ l, Function.update F a i b = F b := by
        intro b hb
        have hne : b ≠ a := fun h => ha (h ▸ hb)
        rw [Function.update_of_ne hne]
      refine ⟨Function.update F a i, ?_, ?_⟩
      · rw [List.map_cons, Function.update_self]
        exact congrArg _ (List.map_congr_left fun b hb => by rw [hF b hb])
      · rw [List.map_cons, Function.update_self]
        exact congrArg _ (List.map_congr_left fun b hb => by rw [hF b hb])

end Related

end MLocust.Lib.Program
