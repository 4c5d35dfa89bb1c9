/-
  MLocust.Faker.Spacing

  Path components written with white space in them.

  A component is a property name, possibly with the array marker behind it.
  `Spaced` says how it may be written: with white space before, inside and after
  the name, and after the marker.  `stripProp` deletes white space, but only after
  it has stripped the parentheses, and `procpath` looks for the marker at the end of
  the component as it is written.  So white space in and around the name never
  matters (`Spaced.kept`), and white space after the marker hides the marker
  (`Spaced.lost`).
-/
import MLocust.Faker.Path

namespace MLocust.Faker

open Lib PyStr

/-- A property name: not empty, without white space, parentheses and dots. -/
structure PropName where
  text : PyStr
  ne_nil : text ≠ []
  no_space : ∀ c ∈ text, ¬ isSpace c
  no_paren : ∀ c ∈ text, ¬ isParen c
  no_dot : '.' ∉ text

/-- The ways to write the name with white space before, inside and after it and, if it is
    marked as an array, after the marker. -/
inductive Spaced (name : PropName) : Bool → PyStr → Prop
  | object {body} : removeSpace body = name.text → Spaced name false body
  | array {body trail} : removeSpace body = name.text → (∀ c ∈ trail, isSpace c) →
      Spaced name true (body ++ marker ++ trail)

/-- A component of a path, and how it is written. -/
structure Component where
  name : PropName
  marked : Bool
  written : PyStr
  spaced : Spaced name marked written

/-- The component without white space. -/
def Component.plain (c : Component) : PyStr := c.name.text ++ if c.marked then marker else []

variable {name : PropName} {body trail s : PyStr} {marked : Bool} {x : Char}

-- ============================================================================
-- Characters
-- ============================================================================

theorem removeSpace_append (s t : PyStr) : removeSpace (s ++ t) = removeSpace s ++ removeSpace t :=
  List.filter_append s t

theorem removeSpace_of_spaces (h : ∀ c ∈ trail, isSpace c) : removeSpace trail = [] := by
  refine List.filter_eq_nil_iff.mpr fun c hc => ?_
  simp [h c hc]

theorem removeSpace_name (name : PropName) : removeSpace name.text = name.text := by
  refine List.filter_eq_self.mpr fun c hc => ?_
  simpa using name.no_space c hc

theorem mem_name_of_mem_body (h : removeSpace body = name.text) (hx : x ∈ body)
    (hspace : ¬ isSpace x) : x ∈ name.text := by
  rw [← h]
  exact List.mem_filter.mpr ⟨hx, by simpa using hspace⟩

theorem body_no_paren (h : removeSpace body = name.text) : ∀ c ∈ body, ¬ isParen c := by
  intro c hc hparen
  have hspace : ¬ isSpace c := by
    rw [isSpace_of_isParen hparen]
    exact Bool.false_ne_true
  exact name.no_paren c (mem_name_of_mem_body h hc hspace) hparen

theorem body_no_dot (h : removeSpace body = name.text) : '.' ∉ body := fun hdot =>
  name.no_dot (mem_name_of_mem_body h hdot (by decide))

theorem body_ne_nil (h : removeSpace body = name.text) : body ≠ [] := by
  rintro rfl
  exact name.ne_nil h.symm

theorem forall_isParen_marker : ∀ c ∈ marker, isParen c := List.all_eq_true.mp rfl

theorem spaces_no_paren (h : ∀ c ∈ trail, isSpace c) : ∀ c ∈ trail, ¬ isParen c := by
  intro c hc hparen
  have hspace := h c hc
  rw [isSpace_of_isParen hparen] at hspace
  cases hspace

-- ============================================================================
-- Components that keep their marker
-- ============================================================================

theorem stripName_body (h : removeSpace body = name.text) : stripName body = name.text := by
  have hparen := body_no_paren h
  cases body with
  | nil => exact h
  | cons c b =>
      rw [stripName, stripMarker,
        strip_of_forall_neg fun x hx => hparen x (List.mem_cons_of_mem _ hx)]
      exact h

theorem stripName_marker (h : removeSpace body = name.text) :
    stripName (body ++ marker) = name.text := by
  cases body with
  | nil => exact absurd rfl (body_ne_nil h)
  | cons c b =>
      have hb : ∀ x ∈ b, ¬ isParen x := fun x hx => body_no_paren h x (List.mem_cons_of_mem _ hx)
      rw [List.cons_append, stripName, stripMarker,
        strip_append_of_forall forall_isParen_marker, strip_of_forall_neg hb]
      exact h

theorem not_endsWithMarker_of_no_paren (hne : s ≠ []) (h : ∀ c ∈ s, ¬ isParen c) :
    ¬ endsWithMarker s :=
  not_endsWithMarker_of_getLast hne (h _ (List.getLast_mem hne))

theorem not_endsWithMarker_trail (htrail : trail ≠ []) (h : ∀ c ∈ trail, isSpace c) (s : PyStr) :
    ¬ endsWithMarker (s ++ trail) := by
  refine not_endsWithMarker_of_getLast (List.append_ne_nil_of_right_ne_nil s htrail) ?_
  rw [List.getLast_append_of_right_ne_nil _ _ htrail]
  exact spaces_no_paren h _ (List.getLast_mem htrail)

/-- A component that ends with its marker, or has none, is read as it is meant. -/
theorem Spaced.kept (h : Spaced name marked s) (hmark : marked → endsWithMarker s) :
    stripName s = name.text ∧ endsWithMarker s = marked := by
  cases h with
  | object hbody =>
      refine ⟨stripName_body hbody, ?_⟩
      simpa using not_endsWithMarker_of_no_paren (body_ne_nil hbody) (body_no_paren hbody)
  | @array body trail hbody htrail =>
      have hnil : trail = [] := by
        by_contra hne
        exact not_endsWithMarker_trail hne htrail _ (hmark rfl)
      subst hnil
      rw [List.append_nil]
      exact ⟨stripName_marker hbody, endsWithMarker_iff.mpr ⟨body, rfl⟩⟩

/-- White space after the marker hides the marker.  The name is read with the marker in it,
    unless the marker stands right after the first character. -/
theorem Spaced.lost (h : Spaced name true s) (hmark : ¬ endsWithMarker s) :
    stripName s = if marker <+: s.tail then name.text else name.text ++ marker := by
  cases h with
  | @array body trail hbody htrail =>
      have hne : trail ≠ [] := by
        rintro rfl
        rw [List.append_nil] at hmark
        exact hmark (endsWithMarker_iff.mpr ⟨body, rfl⟩)
      cases body with
      | nil => exact absurd rfl (body_ne_nil hbody)
      | cons c b =>
          rw [List.cons_append, List.cons_append, stripName, List.tail_cons, stripMarker]
          cases b with
          -- a body of one character: its marker is found behind it and stripped
          | nil =>
              rw [if_pos (by rw [List.nil_append]; exact List.prefix_append _ _),
                List.nil_append, strip_of_forall_append forall_isParen_marker,
                strip_of_forall_neg (spaces_no_paren htrail), ← List.singleton_append,
                removeSpace_append, removeSpace_of_spaces htrail, List.append_nil]
              exact hbody
          | cons d b =>
              -- a longer body: neither end of the rest is a parenthesis
              have hd : ¬ isParen d :=
                body_no_paren hbody d (List.mem_cons_of_mem _ List.mem_cons_self)
              have hlast : ¬ isParen ((d :: (b ++ marker ++ trail)).getLast
                  (List.cons_ne_nil _ _)) := by
                rw [List.getLast_cons (List.append_ne_nil_of_right_ne_nil _ hne),
                  List.getLast_append_of_right_ne_nil _ _ hne]
                exact spaces_no_paren htrail _ (List.getLast_mem hne)
              have hnot : ¬ marker <+: d :: (b ++ marker ++ trail) := by
                intro hpre
                rw [marker, List.cons_prefix_cons] at hpre
                exact hd (isParen_iff.mpr (Or.inl hpre.1.symm))
              rw [List.cons_append, List.cons_append, strip_eq_self hd hlast, if_neg hnot]
              show removeSpace ((c :: d :: b) ++ marker ++ trail) = _
              rw [removeSpace_append, removeSpace_append, hbody, removeSpace_of_spaces htrail,
                List.append_nil]
              rfl

theorem Spaced.no_dot (h : Spaced name marked s) : '.' ∉ s := by
  cases h with
  | object hbody => exact body_no_dot hbody
  | array hbody htrail =>
      rw [List.mem_append, List.mem_append]
      rintro ((hdot | hdot) | hdot)
      · exact body_no_dot hbody hdot
      · exact absurd hdot (by decide)
      · exact absurd (htrail _ hdot) (by decide)

/-- A component of this form is never empty and never starts with a parenthesis. -/
theorem Spaced.walkable (h : Spaced name marked s) : s ≠ [] ∧ ¬ startsWithParen s := by
  have hbody : ∀ {body t}, removeSpace body = name.text → body ++ t ≠ [] ∧
      ¬ startsWithParen (body ++ t) := by
    intro body t hbody
    cases body with
    | nil => exact absurd rfl (body_ne_nil hbody)
    | cons c b => exact ⟨List.cons_ne_nil _ _, body_no_paren hbody c List.mem_cons_self⟩
  cases h with
  | object h =>
      have hwalk := hbody (t := []) h
      rwa [List.append_nil] at hwalk
  | array h _ =>
      rw [List.append_assoc]
      exact hbody h

/-- The plain form is one of the ways to write a component. -/
theorem Component.spaced_plain (c : Component) : Spaced c.name c.marked c.plain := by
  rw [Component.plain]
  cases c.marked with
  | false =>
      rw [if_neg Bool.false_ne_true, List.append_nil]
      exact .object (removeSpace_name c.name)
  | true =>
      rw [if_pos rfl, ← List.append_nil (c.name.text ++ marker)]
      exact .array (removeSpace_name c.name) fun x hx => nomatch hx

theorem Component.endsWithMarker_plain (c : Component) (h : c.marked) : endsWithMarker c.plain := by
  rw [Component.plain, if_pos h]
  exact endsWithMarker_iff.mpr ⟨c.name.text, rfl⟩

end MLocust.Faker
