/-
  MLocust.Lib.Tape

  Programs whose state holds a tape of random draws.

  A run that returns has read a finite part of the tape, and would have done the
  same in front of any other rest of the tape (`ReadsPart`).  So runs can be glued:
  what a program can return when it is repeated `n` times is a chain of `n` steps
  of the program, each with draws of its own (`chain_iff_repeat`).

  In a chain, a step starts with the part of the state that the step before left
  (its `size`).  If the outputs of a step are the same for all sizes that occur,
  then the outputs possible at each position of a chain are the same
  (`Even.outputsAt_eq`).
-/
import MLocust.Lib.Program
import Mathlib.Data.Set.Basic
import Mathlib.Data.Stream.Init

namespace MLocust.Lib

open Program

section ReadsPart

variable {ε σ τ α β γ : Type} {put : Stream' γ → σ → σ} {x : EStateM ε σ α}
  {f : α → EStateM ε σ β}

/-- A run of `x` that returns reads a finite part of the tape; with any other rest of the tape
    behind this part it returns the same, and leaves the rest. -/
def ReadsPart (put : Stream' γ → σ → σ) (x : EStateM ε σ α) : Prop :=
  ∀ s a t, x s = .ok a t →
    ∃ part : List γ, ∀ rest, x (put (part ++ₛ rest) s) = .ok a (put rest t)

namespace ReadsPart

theorem pure (a : α) : ReadsPart put (pure a : EStateM ε σ α) := by
  intro s b t h
  cases h
  exact ⟨[], fun _ => rfl⟩

theorem throw (e : ε) : ReadsPart put (throw e : EStateM ε σ α) := by
  intro s b t h
  cases h

theorem fromExcept (r : Except ε α) : ReadsPart put (fromExcept r : EStateM ε σ α) := by
  cases r with
  | ok a => exact ReadsPart.pure a
  | error e => exact ReadsPart.throw e

theorem bind (hx : ReadsPart put x) (hf : ∀ a, ReadsPart put (f a)) :
    ReadsPart put (x >>= f) := by
  intro s b u h
  obtain ⟨a, t, hxs, hft⟩ := bind_eq_ok.mp h
  obtain ⟨part, hpart⟩ := hx s a t hxs
  obtain ⟨part', hpart'⟩ := hf a t b u hft
  refine ⟨part ++ part', fun rest => ?_⟩
  rw [Stream'.append_append_stream, bind_of_ok (hpart _)]
  exact hpart' rest

theorem mapM {f : α → EStateM ε σ β} (hf : ∀ a, ReadsPart put (f a)) (l : List α) :
    ReadsPart put (l.mapM f) := by
  induction l with
  | nil => exact ReadsPart.pure []
  | cons a l ih =>
      rw [List.mapM_cons]
      exact bind (hf a) fun b => bind ih fun bs => ReadsPart.pure _

theorem foldlM {f : β → α → EStateM ε σ β} (hf : ∀ b a, ReadsPart put (f b a)) (l : List α)
    (b : β) : ReadsPart put (l.foldlM f b) := by
  induction l generalizing b with
  | nil => exact ReadsPart.pure b
  | cons a l ih => exact bind (hf b a) fun c => ih c

theorem zoom {get : τ → σ} {set : σ → τ → τ} {put' : Stream' γ → τ → τ}
    (hget : ∀ tape t, get (put' tape t) = put tape (get t))
    (hset : ∀ tape rest s t, set (put rest s) (put' tape t) = put' rest (set s t))
    (hx : ReadsPart put x) : ReadsPart put' (zoom get set x) := by
  intro s a t h
  obtain ⟨u, hu, rfl⟩ := zoom_eq_ok.mp h
  obtain ⟨part, hpart⟩ := hx _ a u hu
  refine ⟨part, fun rest => zoom_eq_ok.mpr ⟨put rest u, ?_, ?_⟩⟩
  · rw [hget]
    exact hpart rest
  · exact (hset _ rest u s).symm

end ReadsPart

end ReadsPart

-- ============================================================================
-- Chains
-- ============================================================================

section Chain

variable {ι δ : Type} {D : ι → δ → ι → Prop} {S : Set ι} {m : ι} {n i j : Nat}

/-- The outputs of consecutive steps, each starting where the step before ended. -/
inductive Chain (D : ι → δ → ι → Prop) : ι → List δ → Prop
  | nil (m : ι) : Chain D m []
  | cons {m m' : ι} {d : δ} {ds : List δ} : D m d m' → Chain D m' ds → Chain D m (d :: ds)

/-- The outputs a step can have from the size `m`. -/
def outputs (D : ι → δ → ι → Prop) (m : ι) : Set δ := { d | ∃ m', D m d m' }

/-- The outputs that chains of length `n` from the size `m` can have at position `j`. -/
def outputsAt (D : ι → δ → ι → Prop) (m : ι) (n j : Nat) : Set δ :=
  { d | ∃ ds, Chain D m ds ∧ ds.length = n ∧ ds[j]? = some d }

/-- Steps stay among the sizes `S`, and have the same outputs from each of them. -/
structure Even (D : ι → δ → ι → Prop) (S : Set ι) : Prop where
  stays : ∀ m ∈ S, ∀ d m', D m d m' → m' ∈ S
  same : ∀ m ∈ S, ∀ m' ∈ S, outputs D m = outputs D m'

/-- A size that every step leaves as it is. -/
theorem even_singleton (h : ∀ d m', D m d m' → m' = m) : Even D {m} where
  stays := by
    rintro _ rfl d m' hd
    exact h d m' hd
  same := by
    rintro _ rfl _ rfl
    rfl

theorem Even.chain_replicate (h : Even D S) (hm : m ∈ S) {d : δ} (hd : d ∈ outputs D m) :
    Chain D m (List.replicate n d) := by
  induction n generalizing m with
  | zero => exact .nil m
  | succ n ih =>
      obtain ⟨m', hm'⟩ := hd
      have hmem := h.stays m hm d m' hm'
      refine .cons hm' (ih hmem ?_)
      rw [← h.same m hm m' hmem]
      exact ⟨m', hm'⟩

theorem Even.mem_outputs (h : Even D S) (hm : m ∈ S) {ds : List δ} (hds : Chain D m ds) :
    ∀ d ∈ ds, d ∈ outputs D m := by
  induction hds with
  | nil m => exact fun _ hd => nomatch hd
  | @cons m m' d ds hstep _ ih =>
      have hmem := h.stays m hm d m' hstep
      refine List.forall_mem_cons.mpr ⟨⟨m', hstep⟩, fun e he => ?_⟩
      rw [h.same m hm m' hmem]
      exact ih hmem e he

/-- What is possible at one position is possible at every other one. -/
theorem Even.outputsAt_eq (h : Even D S) (hm : m ∈ S) (hi : i < n) (hj : j < n) :
    outputsAt D m n i = outputsAt D m n j := by
  have hsub : ∀ {i j}, j < n → outputsAt D m n i ⊆ outputsAt D m n j := by
    rintro i j hj d ⟨ds, hds, _, hd⟩
    have hout := h.mem_outputs hm hds d (List.mem_of_getElem? hd)
    refine ⟨List.replicate n d, h.chain_replicate hm hout, List.length_replicate, ?_⟩
    rw [List.getElem?_replicate, if_pos hj]
  exact Set.Subset.antisymm (hsub hj) (hsub hi)

/-- A chain from one of the sizes is a chain from each of them. -/
theorem Even.chain_of_mem (h : Even D S) (hm : m ∈ S) {m' : ι} (hm' : m' ∈ S) {ds : List δ}
    (hds : Chain D m ds) : Chain D m' ds := by
  induction hds generalizing m' with
  | nil m => exact .nil m'
  | @cons m m₁ d ds hstep _ ih =>
      have hout : d ∈ outputs D m' := by
        rw [← h.same m hm m' hm']
        exact ⟨m₁, hstep⟩
      obtain ⟨m₂, hstep'⟩ := hout
      exact .cons hstep' (ih (h.stays m hm d m₁ hstep) (h.stays m' hm' d m₂ hstep'))

theorem Even.chain_append (h : Even D S) (hm : m ∈ S) {ds es : List δ} (hds : Chain D m ds)
    (hes : Chain D m es) : Chain D m (ds ++ es) := by
  induction hds with
  | nil m => exact hes
  | @cons m m' d ds hstep _ ih =>
      have hmem := h.stays m hm d m' hstep
      exact .cons hstep (ih hmem (h.chain_of_mem hm hmem hes))

/-- Chains from any of the sizes can be put one after the other. -/
theorem Even.chain_flatten (h : Even D S) (hm : m ∈ S) {parts : List (List δ)}
    (hparts : ∀ part ∈ parts, ∃ m' ∈ S, Chain D m' part) : Chain D m parts.flatten := by
  induction parts with
  | nil => exact .nil m
  | cons part parts ih =>
      obtain ⟨⟨m', hm', hpart⟩, hparts⟩ := List.forall_mem_cons.mp hparts
      rw [List.flatten_cons]
      exact h.chain_append hm (h.chain_of_mem hm' hm hpart) (ih hparts)

end Chain

-- ============================================================================
-- Repeating a program
-- ============================================================================

section Repeat

variable {ε σ α γ δ ι : Type} {tape : σ → Stream' γ} {put : Stream' γ → σ → σ}
  {size : σ → ι} {out : α → δ} {x : EStateM ε σ α}

/-- The states have the same tape and the same size. -/
def Agree (tape : σ → Stream' γ) (size : σ → ι) (s t : σ) : Prop :=
  tape s = tape t ∧ size s = size t

/-- One run of the program: the size it starts with, its output, and the size it leaves. -/
def OneRun (size : σ → ι) (out : α → δ) (x : EStateM ε σ α) (m : ι) (d : δ) (m' : ι) : Prop :=
  ∃ s a t, size s = m ∧ x s = .ok a t ∧ d = out a ∧ m' = size t

theorem length_of_mapM {κ : Type} {l : List κ} {s t : σ} {as : List α}
    (h : (l.mapM fun _ => x) s = .ok as t) : as.length = l.length := by
  induction l generalizing s as with
  | nil =>
      cases h
      rfl
  | cons k l ih =>
      rw [List.mapM_cons] at h
      obtain ⟨a, u, ha, h⟩ := bind_eq_ok.mp h
      obtain ⟨rest, v, hrest, hcons⟩ := bind_eq_ok.mp h
      cases hcons
      rw [List.length_cons, List.length_cons, ih hrest]

/-- The outputs of a program that is run once for each element of `l`. -/
theorem chain_of_mapM {κ : Type} (l : List κ) {s t : σ} {as : List α}
    (h : (l.mapM fun _ => x) s = .ok as t) : Chain (OneRun size out x) (size s) (as.map out) := by
  induction l generalizing s as with
  | nil =>
      cases h
      exact .nil _
  | cons k l ih =>
      rw [List.mapM_cons] at h
      obtain ⟨a, u, ha, h⟩ := bind_eq_ok.mp h
      obtain ⟨rest, v, hrest, hcons⟩ := bind_eq_ok.mp h
      cases hcons
      exact .cons ⟨s, a, u, rfl, ha, rfl, rfl⟩ (ih hrest)

/-- A chain of runs, each with draws of its own, is the output of one run with one tape. -/
theorem exists_tape_of_chain {κ : Type} [Inhabited γ] (htape : ∀ d s, tape (put d s) = d)
    (hsize : ∀ d s, size (put d s) = size s) (hreads : ReadsPart put x)
    (hagree : Related (Agree tape size) (fun a b => out a = out b) x x) {m : ι} {ds : List δ}
    (h : Chain (OneRun size out x) m ds) (l : List κ) (hl : l.length = ds.length) :
    ∃ d, ∀ s, tape s = d → size s = m →
      ∃ as t, (l.mapM fun _ => x) s = .ok as t ∧ as.map out = ds := by
  induction h generalizing l with
  | nil m =>
      obtain rfl := List.length_eq_zero_iff.mp hl
      exact ⟨Stream'.const default, fun s _ _ => ⟨[], s, rfl, rfl⟩⟩
  | cons hstep _ ih =>
      obtain ⟨s₁, a, t₁, rfl, hx, rfl, rfl⟩ := hstep
      obtain ⟨k, l, rfl⟩ := List.exists_cons_of_length_eq_add_one hl
      obtain ⟨part, hpart⟩ := hreads s₁ a t₁ hx
      obtain ⟨rest, hrest⟩ := ih l (Nat.succ.inj hl)
      refine ⟨part ++ₛ rest, fun s hs hm => ?_⟩
      -- the run of the chain, moved to the state `s`
      have hst : Agree tape size (put (part ++ₛ rest) s₁) s :=
        ⟨(htape _ _).trans hs.symm, (hsize _ _).trans hm.symm⟩
      obtain ⟨b, t, hb, hout, htt, hsz⟩ := hagree.of_ok hst (hpart rest)
      rw [htape] at htt
      rw [hsize] at hsz
      obtain ⟨as, u, has, hds⟩ := hrest t htt.symm hsz.symm
      refine ⟨b :: as, u, ?_, ?_⟩
      · rw [List.mapM_cons, bind_of_ok hb, bind_of_ok has]
        rfl
      · rw [List.map_cons, hds, hout]

/-- **Gluing.**  What a program can output when it is repeated, over all tapes, are the chains of
    its single runs. -/
theorem chain_iff_repeat {κ : Type} [Inhabited γ] (htape : ∀ d s, tape (put d s) = d)
    (hsize : ∀ d s, size (put d s) = size s) (hreads : ReadsPart put x)
    (hagree : Related (Agree tape size) (fun a b => out a = out b) x x) (l : List κ) (s : σ)
    (ds : List δ) :
    (∃ d as t, (l.mapM fun _ => x) (put d s) = .ok as t ∧ as.map out = ds) ↔
      Chain (OneRun size out x) (size s) ds ∧ ds.length = l.length := by
  constructor
  · rintro ⟨d, as, t, h, rfl⟩
    have hchain : Chain (OneRun size out x) (size (put d s)) (as.map out) := chain_of_mapM l h
    rw [hsize] at hchain
    refine ⟨hchain, ?_⟩
    rw [List.length_map, length_of_mapM h]
  · rintro ⟨hchain, hlen⟩
    obtain ⟨d, hd⟩ := exists_tape_of_chain htape hsize hreads hagree hchain l hlen.symm
    obtain ⟨as, t, has, hds⟩ := hd (put d s) (htape d s) (hsize d s)
    exact ⟨d, as, t, has, hds⟩

end Repeat

end MLocust.Lib
