import ProcLang.Proofs.Grammar.Upcoming

/-!
# Parsers that cannot be told apart

Two parsers may differ in what no production looks at: in where their tokens stand, in the blanks
between them, in the errors found before. `Twins sight R` says that parsers related by `R` look the
same to a production and stay related when they move on or record an error. Whatever is read from
one is then read from the other (`Step.Agree`), and it is enough to show this once for every
production, whichever the relation is.

The `Sight` says how closely what is read is compared: to the letter, or apart from the places.
-/

namespace ProcLang

/-! ## Comparing what is read -/

/-- How closely two readings are compared: to the letter, or apart from where things stand. -/
inductive Sight where
  | sharp
  | placeless
deriving DecidableEq

namespace Sight

/-- What is seen of something, of which `blur` takes the places away. -/
def see {α : Type} (blur : α → α) : Sight → α → α
  | sharp => id
  | placeless => blur

/-- What is seen of a position. -/
def position : Sight → Position → Position :=
  see fun _ => default

/-- What is seen of a line. -/
def line : Sight → Nat → Nat :=
  see fun _ => 0

@[simp]
theorem see_sharp {α : Type} (blur : α → α) : see blur sharp = id := rfl

@[simp]
theorem see_placeless {α : Type} (blur : α → α) : see blur placeless = blur := rfl

theorem line_of_position {sight : Sight} {p q : Position}
    (h : sight.position p = sight.position q) : sight.line p.line = sight.line q.line := by
  cases sight with
  | sharp => exact congrArg Position.line h
  | placeless => rfl

end Sight

/-- The tokens look the same: they stand for the same terminal, and as far as is seen they stand at
the same place. How the value of a number or a string is written does not matter. -/
structure Token.Alike (sight : Sight) (t u : Token) : Prop where
  terminal : t.terminal = u.terminal
  position : sight.position t.position = sight.position u.position

namespace Token.Alike

variable {sight : Sight} {t u : Token}

theorem kind (h : t.Alike sight u) : t.kind = u.kind := by
  rw [← terminal_kind, h.terminal, terminal_kind]

theorem name (h : t.Alike sight u) (hkind : t.kind = .identifier) :
    String.ofList t.text = String.ofList u.text := by
  have hterminal := h.terminal
  rw [Token.terminal, hkind, Token.terminal, ← h.kind, hkind] at hterminal
  exact Terminal.name.inj hterminal

theorem string (h : t.Alike sight u) (hkind : t.kind = .string) :
    String.ofList (Literal.stringValue t.text) = String.ofList (Literal.stringValue u.text) := by
  have hterminal := h.terminal
  rw [Token.terminal, hkind, Token.terminal, ← h.kind, hkind] at hterminal
  exact Terminal.string.inj hterminal

theorem integer (h : t.Alike sight u) (hkind : t.kind = .integer) :
    Literal.integerValue? t.text = Literal.integerValue? u.text := by
  have hterminal := h.terminal
  rw [terminal_integer hkind, terminal_integer (h.kind ▸ hkind)] at hterminal
  unfold Literal.integerValue?
  rw [Terminal.integer.inj hterminal]

theorem number (h : t.Alike sight u) (hkind : t.kind = .integer ∨ t.kind = .float)
    (negated : Bool) : Parser.numberValue? negated t = Parser.numberValue? negated u := by
  ext value
  rw [numberValue?_eq_some hkind, numberValue?_eq_some (h.kind ▸ hkind), h.terminal]

end Token.Alike

/-- Parsers that are related look the same to a production, and stay related when they move on or
record an error. -/
structure Twins (sight : Sight) (R : Parser → Parser → Prop) : Prop where
  current : ∀ {p q}, R p q → p.current.Alike sight q.current
  /-- Nobody looks behind the end of the text. -/
  next : ∀ {p q}, R p q → p.kind ≠ .eof → p.next.kind = q.next.kind
  advance : ∀ {p q}, R p q → R p.advance q.advance
  /-- Stretches that are not tokens are recorded by moving on, not by a production. -/
  report : ∀ {p q} {position position' : Position} (cause : SyntaxCause),
    cause.isLexical = false → R p q → sight.position position = sight.position position' →
    R (p.reportAt position cause) (q.reportAt position' cause)

/-- What stays so when a parser moves on and when a production records an error. -/
structure Parser.Kept (I : Parser → Prop) : Prop where
  advance : ∀ {p}, I p → I p.advance
  report : ∀ {p} (position : Position) {cause : SyntaxCause}, cause.isLexical = false → I p →
    I (p.reportAt position cause)

/-- A parser of which something holds that is kept is a twin of itself, so every production keeps
it. -/
theorem Parser.Kept.twins {I : Parser → Prop} (h : Parser.Kept I) :
    Twins .sharp fun p q => p = q ∧ I p where
  current := by
    rintro p _ ⟨rfl, -⟩
    exact ⟨rfl, rfl⟩
  next := by
    rintro p _ ⟨rfl, -⟩ -
    rfl
  advance := by
    rintro p _ ⟨rfl, hp⟩
    exact ⟨rfl, h.advance hp⟩
  report := by
    rintro p _ position position' cause hcause ⟨rfl, hp⟩ hposition
    obtain rfl : position = position' := hposition
    exact ⟨rfl, h.report position hcause hp⟩

/-- Two steps read the same, as far as `view` shows, and end at related parsers. -/
structure Step.Agree {p q : Parser} {α β : Type} (R : Parser → Parser → Prop) (view : α → β)
    (s : Step p α) (t : Step q α) : Prop where
  value : s.value.map view = t.value.map view
  after : R s.after t.after

/-! ## Steps in order -/

theorem Step.andThen_of_none {p : Parser} {α β : Type} {s : Step p α} {f : HereWith p α β}
    (h : s.value = none) : s.andThen f = ⟨none, s.after, s.le⟩ := by
  obtain ⟨value, q, le⟩ := s
  obtain rfl : value = none := h
  rfl

theorem Step.andThen_of_some {p : Parser} {α β : Type} {s : Step p α} {a : α} {f : HereWith p α β}
    (h : s.value = some a) : s.andThen f = (f s.after s.le a).within s.le := by
  obtain ⟨value, q, le⟩ := s
  obtain rfl : value = some a := h
  rfl

section Steps

variable {sight : Sight} {R : Parser → Parser → Prop} {p q : Parser} {α β γ δ : Type} {s : Step p α}
  {t : Step q α}

  {view : α → β} {view' : γ → δ}

theorem agree_done {a b : α} (h : R p q) (hview : view a = view b) :
    (Step.done p a).Agree R view (Step.done q b) :=
  ⟨congrArg some hview, h⟩

theorem Step.Agree.within {p' q' : Parser} (h : s.Agree R view t) (le : p.remaining ≤ p'.remaining)
    (le' : q.remaining ≤ q'.remaining) : (s.within le).Agree R view (t.within le') :=
  ⟨h.value, h.after⟩

theorem Step.Agree.map (h : s.Agree R view t) {f g : α → γ}
    (hf : ∀ a b, view a = view b → view' (f a) = view' (g b)) :
    (s.map f).Agree R view' (t.map g) := by
  obtain ⟨value, p', le⟩ := s
  obtain ⟨value', q', le'⟩ := t
  obtain ⟨hvalue, hafter⟩ := h
  refine ⟨?_, hafter⟩
  cases value <;> cases value' <;> simp [Step.map] at hvalue ⊢
  exact hf _ _ hvalue

theorem Step.Agree.andThen (h : s.Agree R view t)
    {f : (r : Parser) → r.remaining ≤ p.remaining → α → Step r γ}
    {g : (r : Parser) → r.remaining ≤ q.remaining → α → Step r γ}
    (hf : ∀ p' q' le le' a b, R p' q' → view a = view b →
      (f p' le a).Agree R view' (g q' le' b)) : (s.andThen f).Agree R view' (t.andThen g) := by
  obtain ⟨value, p', le⟩ := s
  obtain ⟨value', q', le'⟩ := t
  obtain ⟨hvalue, hafter⟩ := h
  cases value with
  | none =>
    cases value' with
    | none => exact ⟨rfl, hafter⟩
    | some b => simp at hvalue
  | some a =>
    cases value' with
    | none => simp at hvalue
    | some b => exact (hf p' q' le le' a b hafter (by simpa using hvalue)).within le le'

end Steps

namespace Twins

variable {sight : Sight} {R : Parser → Parser → Prop} (tw : Twins sight R) {p q : Parser}
  {α β : Type} {view : α → β}

include tw

theorem kind (h : R p q) : p.kind = q.kind :=
  (tw.current h).kind

theorem line (h : R p q) : sight.line p.line = sight.line q.line :=
  Sight.line_of_position (tw.current h).position

theorem failAt (h : R p q) {position position' : Position}
    (hposition : sight.position position = sight.position position') (cause : SyntaxCause)
    (hcause : cause.isLexical = false) :
    (p.failAt position cause : Step p α).Agree R view (q.failAt position' cause) :=
  ⟨rfl, tw.report cause hcause h hposition⟩

theorem fail (h : R p q) (cause : SyntaxCause) (hcause : cause.isLexical = false) :
    (p.fail cause : Step p α).Agree R view (q.fail cause) :=
  tw.failAt h (tw.current h).position cause hcause

/-- A token that is asked for is there in both or in neither. -/
theorem expectToken (h : R p q) (kind : TokenKind)
    {f : (r : Parser) → r.remaining < p.remaining → Token → Step r α}
    {g : (r : Parser) → r.remaining < q.remaining → Token → Step r α}
    (hf : ∀ p' q' lt lt' t u, R p' q' → t.kind = kind → t.Alike sight u →
      (f p' lt t).Agree R view (g q' lt' u)) :
    (p.expect kind f).Agree R view (q.expect kind g) := by
  have hkind := tw.kind h
  unfold Parser.expect
  by_cases hp : p.kind = kind ∧ kind ≠ .eof
  · rw [dif_pos hp, dif_pos (hkind ▸ hp)]
    exact (hf _ _ _ _ _ _ (tw.advance h) hp.1 (tw.current h)).within _ _
  · rw [dif_neg hp, dif_neg (hkind ▸ hp), hkind]
    exact tw.fail h _ rfl

theorem expect (h : R p q) (kind : TokenKind)
    {f : (r : Parser) → r.remaining < p.remaining → Token → Step r α}
    {g : (r : Parser) → r.remaining < q.remaining → Token → Step r α}
    (hf : ∀ p' q' lt lt' t u, R p' q' → t.Alike sight u →
      (f p' lt t).Agree R view (g q' lt' u)) : (p.expect kind f).Agree R view (q.expect kind g) :=
  tw.expectToken h kind fun p' q' lt lt' t u h' _ htoken => hf p' q' lt lt' t u h' htoken

theorem expectName (h : R p q) {f : (r : Parser) → r.remaining < p.remaining → String → Step r α}
    {g : (r : Parser) → r.remaining < q.remaining → String → Step r α}
    (hf : ∀ p' q' lt lt' name, R p' q' → (f p' lt name).Agree R view (g q' lt' name)) :
    (p.expectName f).Agree R view (q.expectName g) :=
  tw.expectToken h _ fun p' q' lt lt' _ _ h' hkind htoken =>
    htoken.name hkind ▸ hf p' q' lt lt' _ h'

theorem optional (h : R p q) (kind : TokenKind)
    {f : (r : Parser) → r.remaining ≤ p.remaining → Bool → Step r α}
    {g : (r : Parser) → r.remaining ≤ q.remaining → Bool → Step r α}
    (hf : ∀ p' q' le le' found, R p' q' → (f p' le found).Agree R view (g q' le' found)) :
    (p.optional kind f).Agree R view (q.optional kind g) := by
  unfold Parser.optional
  rw [← tw.kind h]
  split
  · exact (hf _ _ _ _ _ (tw.advance h)).within _ _
  · exact hf _ _ _ _ _ h

/-! ## Lists -/

theorem listRest (absent : TokenKind → Bool) {p q : Parser} {item : Here p α} {item' : Here q α}
    (h : R p q) (hitem : ∀ p' q' le le', R p' q' → (item p' le).Agree R view (item' q' le')) :
    (p.listRest absent item).Agree R (List.map view) (q.listRest absent item') := by
  have hkind := tw.kind h
  have hadvance := tw.advance h
  rw [Parser.listRest, Parser.listRest]
  by_cases hp : p.kind = .comma
  · have lt : p.advance.remaining < p.remaining := Parser.advance_remaining_lt (hp ▸ by decide)
    rw [dif_pos hp, dif_pos (hkind ▸ hp)]
    dsimp only
    rw [← tw.kind hadvance]
    split
    · exact (tw.fail hadvance _ rfl).within _ _
    · refine ((hitem _ _ _ _ hadvance).andThen fun p' q' le le' a b h' hview => ?_).within _ _
      refine (listRest absent h' fun r r' _ _ hr => hitem r r' _ _ hr).map fun as bs hmap => ?_
      rw [List.map_cons, List.map_cons, hview, hmap]
  · rw [dif_neg hp, dif_neg (hkind ▸ hp)]
    exact agree_done h rfl
termination_by p.remaining

theorem list (absent : TokenKind → Bool) {item : Here p α} {item' : Here q α} (h : R p q)
    (hitem : ∀ p' q' le le', R p' q' → (item p' le).Agree R view (item' q' le')) :
    (p.list absent item).Agree R (List.map view) (q.list absent item') := by
  unfold Parser.list
  rw [← tw.kind h]
  split
  · exact agree_done h rfl
  · refine (hitem _ _ _ _ h).andThen fun p' q' le le' a b h' hview => ?_
    refine (tw.listRest absent h' fun r r' _ _ hr => hitem r r' _ _ hr).map fun as bs hmap => ?_
    rw [List.map_cons, List.map_cons, hview, hmap]

end Twins

end ProcLang
