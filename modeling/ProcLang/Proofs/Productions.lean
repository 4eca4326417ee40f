import Mathlib.Algebra.GroupWithZero.Nat
import ProcLang.Proofs.Twins.Items

/-!
# What productions give

`Step.Yields I fine` says of a step that an invariant `I` of the parser is kept on the way and that
what is read is fine, if something is read. `Step.Gives` adds that what is read is not larger than
the text that it was read from: `Stmt.tokens` counts tokens that are certainly there for a
statement. Tokens that are not told from the tree, such as parentheses around operands, are not
counted.

The productions are put together from a few steps, and so is what is known of them: lists
(`gives_list`), blocks (`gives_block`), items of a section (`nextItem_yields`).
-/

namespace ProcLang

/-! ## Declared names -/

mutual

/-- The variables and the procedures that the statement declares have names of a kind. -/
def Stmt.DeclaresOnly (declared : String → Prop) : Stmt → Prop
  | .declare decl _ => declared decl.name
  | .branch _ yes none _ => BlockDeclaresOnly declared yes
  | .branch _ yes (some no) _ => BlockDeclaresOnly declared yes ∧ BlockDeclaresOnly declared no
  | .loop _ _ _ body _ => BlockDeclaresOnly declared body
  | .procedure heading body _ => declared heading.name ∧ BlockDeclaresOnly declared body
  | .assign _ _ _ | .call _ _ | .declareType _ _ _ _ | .result _ _ => True

/-- The variables and the procedures that the statements declare have names of a kind. -/
def BlockDeclaresOnly (declared : String → Prop) : List Stmt → Prop
  | [] => True
  | stmt :: stmts => stmt.DeclaresOnly declared ∧ BlockDeclaresOnly declared stmts

end

mutual

/-- Every name is of some kind. -/
theorem Stmt.declaresOnly_true : ∀ stmt : Stmt, stmt.DeclaresOnly fun _ => True
  | .assign _ _ _ | .call _ _ | .declare _ _ | .declareType _ _ _ _ | .result _ _ => trivial
  | .branch _ yes none _ => blockDeclaresOnly_true yes
  | .branch _ yes (some no) _ => ⟨blockDeclaresOnly_true yes, blockDeclaresOnly_true no⟩
  | .loop _ _ _ body _ => blockDeclaresOnly_true body
  | .procedure _ body _ => ⟨trivial, blockDeclaresOnly_true body⟩

theorem blockDeclaresOnly_true : ∀ stmts : List Stmt, BlockDeclaresOnly (fun _ => True) stmts
  | [] => trivial
  | stmt :: stmts => ⟨stmt.declaresOnly_true, blockDeclaresOnly_true stmts⟩

end

/-! ## Counting tokens -/

mutual

/-- The least number of tokens of an expression. -/
def Expr.tokens : Expr → Nat
  | .literal _ _ _ => 1
  | .read place _ _ => 1 + place.tokens
  | .not operand _ _ => 1 + operand.tokens
  | .binary _ lhs rhs _ _ => lhs.tokens + 1 + rhs.tokens
  | .call _ args _ _ => 2 + argsTokens args

/-- The least number of tokens of a place besides its name. -/
def Place.tokens : Place → Nat
  | .whole _ negated _ => negated.toNat
  | .element _ index negated _ => negated.toNat + 2 + index.tokens

/-- The least number of tokens of arguments, with a comma behind each. -/
def argsTokens : List Expr → Nat
  | [] => 0
  | arg :: args => arg.tokens + 1 + argsTokens args

end

mutual

/-- The least number of tokens of a statement. -/
def Stmt.tokens : Stmt → Nat
  | .assign dest value _ => 2 + dest.tokens + value.tokens
  | .call call _ => call.tokens
  | .declare _ _ => 2
  | .declareType _ _ _ _ => 0
  | .branch cond yes none _ => 6 + cond.tokens + blockTokens yes
  | .branch cond yes (some no) _ => 7 + cond.tokens + blockTokens yes + blockTokens no
  | .loop dest value cond body _ =>
    8 + dest.tokens + value.tokens + cond.tokens + blockTokens body
  | .result value _ => 1 + value.tokens
  | .procedure heading body _ => 7 + heading.params.length + blockTokens body

/-- The least number of tokens of statements in order. -/
def blockTokens : List Stmt → Nat
  | [] => 0
  | stmt :: stmts => stmt.tokens + blockTokens stmts

end

theorem argsTokens_eq_sum : ∀ args : List Expr,
    argsTokens args = (args.map fun arg => arg.tokens + 1).sum
  | [] => rfl
  | arg :: args => by rw [argsTokens, argsTokens_eq_sum, List.map_cons, List.sum_cons]

theorem blockTokens_append : ∀ a b : List Stmt,
    blockTokens (a ++ b) = blockTokens a + blockTokens b
  | [], b => by rw [List.nil_append, blockTokens, Nat.zero_add]
  | stmt :: a, b => by
    rw [List.cons_append, blockTokens, blockTokens, blockTokens_append, Nat.add_assoc]

/-! ## Steps -/

/-- What stays so when a parser moves on, and when errors are recorded or set aside. -/
class Parser.Invariant (I : Parser → Prop) : Prop where
  advance : ∀ {p}, I p → I p.advance
  report : ∀ {p} (position cause), I p → I (p.reportAt position cause)
  clear : ∀ {p}, I p → I p.clearErrors

/-- Nothing is asked of the parser. -/
def Parser.Any (_ : Parser) : Prop :=
  True

instance : Parser.Invariant Parser.Any :=
  ⟨fun _ => trivial, fun _ _ _ => trivial, fun _ => trivial⟩

/-- The step keeps the invariant. If it gives a value, the value is fine. -/
def Step.Yields {p : Parser} {α : Type} (I : Parser → Prop) (fine : α → Prop) (s : Step p α) :
    Prop :=
  I p → I s.after ∧ ∀ a, s.value = some a → fine a

/-- What is kept as long as no error is recorded and no semicolon is passed, and what is left of it
behind an error. -/
structure Parser.Law where
  quiet : Parser → Prop
  always : Parser → Prop
  advance : ∀ {p}, quiet p → p.kind ≠ .semicolon → quiet p.advance
  weaken : ∀ {p}, quiet p → always p
  report : ∀ {p} (position cause), quiet p → always (p.reportAt position cause)

/-- An invariant is kept anyway. -/
def Parser.Law.of (I : Parser → Prop) [Parser.Invariant I] : Parser.Law where
  quiet := I
  always := I
  advance h _ := Parser.Invariant.advance h
  weaken := id
  report := Parser.Invariant.report

/-- The step keeps the law. If it gives a value, no error was recorded, the value is fine, and the
tokens that the step passed are at least as many as the value has. -/
def Step.Gives {p : Parser} {α : Type} (I : Parser.Law) (fine : α → Prop) (size : α → Nat)
    (s : Step p α) : Prop :=
  I.quiet p → I.always s.after ∧ ∀ a, s.value = some a →
    I.quiet s.after ∧ fine a ∧ size a + s.after.remaining ≤ p.remaining

variable {part : Section} {kind : TokenKind} {stmt : Stmt}

section Steps

variable {I : Parser.Law} {J : Parser → Prop} {p q : Parser} {α β : Type} {fine : α → Prop}
  {fine' : β → Prop} {size : α → Nat} {size' : β → Nat}

theorem Step.Gives.yields [Parser.Invariant J] {s : Step p α} (hs : s.Gives (.of J) fine size) :
    s.Yields J fine :=
  fun hp => ⟨(hs hp).1, fun a ha => ((hs hp).2 a ha).2.1⟩

theorem gives_done (p : Parser) {a : α} (h : fine a) (hsize : size a = 0) :
    (Step.done p a).Gives I fine size := by
  intro hp
  refine ⟨I.weaken hp, ?_⟩
  rintro _ ⟨⟩
  rw [hsize, Nat.zero_add]
  exact ⟨hp, h, Nat.le_refl _⟩

theorem Step.Yields.map {s : Step p α} (hs : s.Yields J fine) {f : α → β}
    (hf : ∀ a, fine a → fine' (f a)) : (s.map f).Yields J fine' := by
  intro hp
  refine ⟨(hs hp).1, fun b hb => ?_⟩
  obtain ⟨a, ha, rfl⟩ := Option.map_eq_some_iff.mp hb
  exact hf a ((hs hp).2 a ha)

theorem Step.Gives.map {s : Step p α} (hs : s.Gives I fine size) {f : α → β}
    (hf : ∀ a, fine a → fine' (f a) ∧ size' (f a) ≤ size a) : (s.map f).Gives I fine' size' := by
  intro hp
  refine ⟨(hs hp).1, fun b hb => ?_⟩
  obtain ⟨a, ha, rfl⟩ := Option.map_eq_some_iff.mp hb
  obtain ⟨hq, hfine, hsize⟩ := (hs hp).2 a ha
  obtain ⟨hfine', hle⟩ := hf a hfine
  exact ⟨hq, hfine', Nat.le_trans (Nat.add_le_add_right hle _) hsize⟩

theorem Step.Gives.resize {s : Step p α} (hs : s.Gives I fine size) {size' : α → Nat}
    (h : ∀ a, size' a ≤ size a) : s.Gives I fine size' := by
  intro hp
  refine ⟨(hs hp).1, fun a ha => ?_⟩
  obtain ⟨hq, hfine, hsize⟩ := (hs hp).2 a ha
  exact ⟨hq, hfine, Nat.le_trans (Nat.add_le_add_right (h a) _) hsize⟩

theorem Step.Gives.andThen {s : Step p α} (hs : s.Gives I fine size) {f : HereWith p α β}
    (hf : ∀ q h a, fine a → (f q h a).Gives I fine' fun b => size' b - size a) :
    (s.andThen f).Gives I fine' size' := by
  intro hp
  obtain ⟨hfailed, hvalue⟩ := hs hp
  obtain ⟨value, q, le⟩ := s
  cases value with
  | none => exact ⟨hfailed, fun b hb => by cases hb⟩
  | some a =>
    obtain ⟨hq, hfine, hsize⟩ := hvalue a rfl
    obtain ⟨hafter, hrest⟩ := hf q le a hfine hq
    refine ⟨hafter, fun b hb => ⟨(hrest b hb).1, (hrest b hb).2.1, ?_⟩⟩
    have hle : size' b - size a + (f q le a).after.remaining ≤ q.remaining := (hrest b hb).2.2
    change size' b + (f q le a).after.remaining ≤ p.remaining
    dsimp only at hsize
    omega

/-- The tokens that are not passed within an item. -/
def TokenKind.Stops (kind : TokenKind) : Prop :=
  kind = .eof ∨ kind = .semicolon

instance (kind : TokenKind) : Decidable kind.Stops :=
  inferInstanceAs (Decidable (_ ∨ _))

/-- A step behind the current token. -/
theorem Step.Gives.behind (hkind : ¬ p.kind.Stops) {s : Step p.advance α}
    (hs : s.Gives I fine fun a => size a - 1) (le : p.advance.remaining ≤ p.remaining) :
    (s.within le).Gives I fine size := by
  intro hp
  have lt := Parser.advance_remaining_lt fun h => hkind (.inl h)
  obtain ⟨hafter, hvalue⟩ := hs (I.advance hp fun h => hkind (.inr h))
  refine ⟨hafter, fun a ha => ⟨(hvalue a ha).1, (hvalue a ha).2.1, ?_⟩⟩
  have hsize : size a - 1 + s.after.remaining ≤ p.advance.remaining := (hvalue a ha).2.2
  change size a + s.after.remaining ≤ p.remaining
  omega

theorem gives_failAt (p : Parser) (position : Position) (cause : SyntaxCause) :
    (p.failAt position cause : Step p α).Gives I fine size :=
  fun hp => ⟨I.report position cause hp, fun a ha => by cases ha⟩

/-- A token that is asked for is the current one. -/
theorem gives_expectToken (p : Parser) (hkind : kind ≠ .semicolon) {f : LaterWith p Token α}
    (hf : I.quiet p → p.kind = kind → ∀ q lt, (f q lt p.current).Gives I fine fun a => size a - 1) :
    (p.expect kind f).Gives I fine size := by
  intro hp
  unfold Parser.expect
  by_cases h : p.kind = kind ∧ kind ≠ .eof
  · rw [dif_pos h]
    exact Step.Gives.behind (h.1 ▸ not_or.mpr ⟨h.2, hkind⟩) (hf hp h.1 p.advance _) _ hp
  · rw [dif_neg h]
    exact gives_failAt _ _ _ hp

theorem gives_expect (p : Parser) (hkind : (kind != .semicolon) = true) {f : LaterWith p Token α}
    (hf : ∀ q lt token, (f q lt token).Gives I fine fun a => size a - 1) :
    (p.expect kind f).Gives I fine size :=
  gives_expectToken p (bne_iff_ne.mp hkind) fun _ _ q lt => hf q lt _

variable {word : String → Prop}

/-- A name that is read is that of an identifier. -/
theorem gives_named (p : Parser)
    (hword : ∀ q, I.quiet q → q.kind = .identifier → word (String.ofList q.current.text))
    {f : LaterWith p String α}
    (hf : ∀ q lt name, word name → (f q lt name).Gives I fine fun a => size a - 1) :
    (p.expectName f).Gives I fine size :=
  gives_expectToken p (by decide) fun hp hkind q lt => hf q lt _ (hword p hp hkind)

/-- A token that may be there is not counted. -/
theorem gives_optional (p : Parser) (hkind : (kind != .semicolon) = true) {f : HereWith p Bool α}
    (hf : ∀ q le found, (f q le found).Gives I fine size) :
    (p.optional kind f).Gives I fine size := by
  unfold Parser.optional
  split
  · rename_i h
    intro hp
    obtain ⟨hafter, hvalue⟩ := hf _ _ true (I.advance hp (h ▸ bne_iff_ne.mp hkind))
    refine ⟨hafter, fun a ha => ⟨(hvalue a ha).1, (hvalue a ha).2.1, ?_⟩⟩
    exact Nat.le_trans (hvalue a ha).2.2 p.advance_remaining_le
  · exact hf _ _ _

/-! ## Lists -/

/-- The items of a list are fine, and there is a comma for each of them. -/
theorem gives_listRest (absent : TokenKind → Bool) : ∀ (p : Parser) (item : Here p α),
    (∀ q le, (item q le).Gives I fine size) →
      (p.listRest absent item).Gives I (fun items => ∀ a ∈ items, fine a)
        fun items => (items.map fun a => size a + 1).sum
  | p, item, hitem => by
    rw [Parser.listRest]
    split
    · rename_i h
      have hkind : ¬ p.kind.Stops := h ▸ by decide
      have lt : p.advance.remaining < p.remaining := Parser.advance_remaining_lt (h ▸ by decide)
      dsimp only
      split
      · exact Step.Gives.behind hkind (gives_failAt _ _ _) _
      · refine Step.Gives.behind hkind ((hitem _ _).andThen fun q le a ha => ?_) _
        have hrest := gives_listRest absent q (item.mono (Nat.le_trans le (Nat.le_of_lt lt)))
          fun r hr => hitem r _
        refine hrest.map fun items hitems => ⟨List.forall_mem_cons.mpr ⟨ha, hitems⟩, ?_⟩
        rw [List.map_cons, List.sum_cons]
        omega
    · exact gives_done p (fun a ha => by cases ha) rfl
termination_by p => p.remaining

theorem gives_list (absent : TokenKind → Bool) (p : Parser) {item : Here p α}
    (hitem : ∀ q le, (item q le).Gives I fine size) :
    (p.list absent item).Gives I (fun items => ∀ a ∈ items, fine a)
      fun items => (items.map fun a => size a + 1).sum - 1 := by
  unfold Parser.list
  split
  · exact gives_done p (fun a ha => by cases ha) rfl
  · refine (hitem p _).andThen fun q le a ha => ?_
    have hrest := gives_listRest absent q (item.mono le) fun r hr => hitem r _
    refine hrest.map fun items hitems => ⟨List.forall_mem_cons.mpr ⟨ha, hitems⟩, ?_⟩
    rw [List.map_cons, List.sum_cons]
    omega

end Steps

/-! ## Items -/

/-- An item that was read has a semicolon behind it. -/
theorem item_eq_parsed {p : Parser} {s : Step p Stmt} {after : Parser}
    {lt : after.remaining < p.remaining} (h : s.item = .parsed stmt after lt) :
    s.value = some stmt ∧ s.after.kind = .semicolon ∧ after = s.after.advance := by
  obtain ⟨value, q, le⟩ := s
  have skipped : ∀ (r : Parser) (hr : r.remaining ≤ p.remaining),
      Step.item.skip r hr ≠ Item.parsed stmt after lt := by
    intro r hr heq
    unfold Step.item.skip at heq
    cases hrecover : r.recover with
    | resumed after lt | ended after le =>
      rw [hrecover] at heq
      cases heq
  cases value with
  | none => exact absurd h (skipped q le)
  | some a =>
    unfold Step.item at h
    dsimp only at h
    split at h
    · rename_i hkind
      cases h
      exact ⟨rfl, hkind, rfl⟩
    · exact absurd h (skipped _ _)

section Items

variable {I : Parser → Prop} {fine : Stmt → Prop} {p q : Parser}

/-- The invariant holds behind the item, and the item is fine. -/
def Next.Yields (I : Parser → Prop) (fine : Stmt → Prop) : Next p → Prop
  | .item stmt q _ => I q ∧ fine stmt
  | .recovered q _ => I q
  | .finished q _ => I q
  | .ended q _ => I q

variable [Parser.Invariant I]

/-- A parser for which an invariant holds is a twin of itself. -/
theorem Parser.Invariant.twins : Twins .sharp fun p q => p = q ∧ I p :=
  Parser.Kept.twins ⟨advance, fun position _ _ h => report position _ h⟩

/-- An item is read with its semicolon. -/
theorem Step.Gives.parsed {s : Step p Stmt} (hs : s.Gives (.of I) fine Stmt.tokens) (hp : I p)
    {after : Parser} {lt : after.remaining < p.remaining} (h : s.item = .parsed stmt after lt) :
    I after ∧ fine stmt ∧ stmt.tokens + after.remaining ≤ p.remaining := by
  obtain ⟨hsome, -, rfl⟩ := item_eq_parsed h
  obtain ⟨hafter, hfine, hsize⟩ := (hs hp).2 stmt hsome
  have hadvance := s.after.advance_remaining_le
  exact ⟨Parser.Invariant.advance hafter, hfine, by omega⟩

/-- An invariant is kept when a semicolon is passed that is asked for. -/
theorem gives_semicolon {α : Type} {fine : α → Prop} {size : α → Nat} (p : Parser)
    {f : LaterWith p Token α}
    (hf : ∀ q lt token, (f q lt token).Gives (.of I) fine fun a => size a - 1) :
    (p.expect .semicolon f).Gives (.of I) fine size := by
  intro hp
  unfold Parser.expect
  split
  · rename_i h
    have lt := Parser.advance_remaining_lt (h.1 ▸ h.2)
    obtain ⟨hafter, hvalue⟩ := hf p.advance lt p.current (Parser.Invariant.advance (I := I) hp)
    refine ⟨hafter, fun a ha => ⟨(hvalue a ha).1, (hvalue a ha).2.1, ?_⟩⟩
    have hsize : size a - 1 + _ ≤ p.advance.remaining := (hvalue a ha).2.2
    change size a + (f p.advance lt p.current).after.remaining ≤ p.remaining
    omega
  · exact gives_failAt _ _ _ hp

/-- **The items of a block** are fine if each of them is. -/
theorem gives_block (stops : List TokenKind) (p : Parser) (item : Here p Stmt)
    (hitem : ∀ q le, (item q le).Gives (.of I) fine Stmt.tokens) :
    (p.block stops item).Gives (.of I) (fun stmts => ∀ stmt ∈ stmts, fine stmt) blockTokens := by
  intro hp
  rw [Parser.block]
  split
  · exact gives_done p (by simp) rfl hp
  · split
    · exact gives_failAt _ _ _ hp
    · have hread : Item.Agree (fun p q => p = q ∧ I p) id item.run.item item.run.item :=
        Parser.Invariant.twins.item ⟨rfl, rfl, (hitem p (Nat.le_refl _) hp).1⟩
      split
      · rename_i stmt q lt h
        obtain ⟨hq, hstmt, hsize⟩ := (hitem p (Nat.le_refl _)).parsed hp h
        obtain ⟨hafter, hrest⟩ :=
          gives_block stops q (item.mono (Nat.le_of_lt lt)) (fun r _ => hitem r _) hq
        refine ⟨hafter, fun stmts hstmts => ?_⟩
        obtain ⟨tail, htail, rfl⟩ := Option.map_eq_some_iff.mp hstmts
        obtain ⟨hlast, hfine, htokens⟩ := hrest tail htail
        refine ⟨hlast, List.forall_mem_cons.mpr ⟨hstmt, hfine⟩, ?_⟩
        rw [blockTokens, Nat.add_assoc]
        exact Nat.le_trans (Nat.add_le_add_left htokens _) hsize
      · rename_i q lt h
        rw [h] at hread
        obtain ⟨hafter, hrest⟩ :=
          gives_block stops q (item.mono (Nat.le_of_lt lt)) (fun r _ => hitem r _) hread.2
        refine ⟨hafter, fun stmts hstmts => ⟨(hrest stmts hstmts).1, (hrest stmts hstmts).2.1, ?_⟩⟩
        exact Nat.le_trans (hrest stmts hstmts).2.2 (Nat.le_of_lt lt)
      · rename_i q le h
        rw [h] at hread
        exact ⟨Parser.Invariant.report (I := I) _ _ hread.2, fun stmts hstmts => by cases hstmts⟩
termination_by p.remaining

/-- The next item of a section was read as an item with its semicolon. -/
theorem nextItem_parsed {lt : q.remaining < p.remaining} (h : p.nextItem part = .item stmt q lt) :
    (p.item part).item = .parsed stmt q lt := by
  have hitem : ∀ {part : Section}, p.terminatedItem part = .item stmt q lt →
      (p.item part).item = .parsed stmt q lt := by
    intro part h
    unfold Parser.terminatedItem at h
    split at h
    · rename_i hparsed
      cases h
      exact hparsed
    · cases h
    · cases h
  unfold Parser.nextItem at h
  split at h <;> split at h
  · cases h
  · split at h
    · cases h
    · exact hitem h
  · cases h
  · split at h
    · cases h
    · exact hitem h

theorem header_gives {word : String → Prop}
    (hword : ∀ q, I q → q.kind = .identifier → word (String.ofList q.current.text)) (p : Parser) :
    p.header.Gives (.of I) word fun _ => 0 :=
  gives_expect p rfl fun q _ _ => gives_named q hword fun r _ _ hname =>
    gives_expect r rfl fun s _ _ => gives_done s hname rfl

/-- **The next item of a section** is fine, and the invariant holds behind it. -/
theorem nextItem_yields (hitem : (p.item part).Yields I fine) (hp : I p) :
    (p.nextItem part).Yields I fine := by
  have hnext := Parser.Invariant.twins.nextItem part ⟨rfl, hp⟩
  cases h : p.nextItem part with
  | item stmt q lt =>
    rw [h] at hnext
    exact ⟨hnext.2.2, (hitem hp).2 stmt (item_eq_parsed (nextItem_parsed h)).1⟩
  | recovered q lt | finished q le | ended q le =>
    rw [h] at hnext
    exact hnext.2

/-- **The items of a section** are fine if each of them is. -/
theorem yields_items (hitem : ∀ q : Parser, (q.item part).Yields I fine) (p : Parser) :
    (p.items part).Yields I fun stmts => ∀ stmt ∈ stmts, fine stmt := by
  intro hp
  have hnext := nextItem_yields (hitem p) hp
  rw [Parser.items]
  cases hread : p.nextItem part with
  | item stmt q lt =>
    rw [hread] at hnext
    refine (yields_items hitem q).map (fun stmts hstmts => ?_) hnext.1
    exact List.forall_mem_cons.mpr ⟨hnext.2, hstmts⟩
  | recovered q lt =>
    rw [hread] at hnext
    exact yields_items hitem q hnext
  | finished q le =>
    rw [hread] at hnext
    exact ⟨hnext, fun stmts hstmts => by cases hstmts; simp⟩
  | ended q le =>
    rw [hread] at hnext
    exact ⟨hnext, fun stmts h => by cases h⟩
termination_by p.remaining

end Items

end ProcLang
