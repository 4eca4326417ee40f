import Mathlib.Algebra.Order.BigOperators.Group.List
import Mathlib.Algebra.Order.Ring.Nat
import ProcLang.Proofs.AsRead
import ProcLang.Proofs.AtOnce
import ProcLang.Proofs.Bounds
import ProcLang.Proofs.Meaning.Range
import ProcLang.Proofs.Steps.Stmt
import ProcLang.Proofs.Values

/-!
# Compiling within bounds

A text of less than two gigabytes whose columns fit is compiled, whatever is wrong with it, and
nothing goes beyond its bounds on the way (`compile_within_bounds`):

* the scan comes to the end of the text, and spans can be cut out of it (`scan_sound`);
* values are taken out of tokens of the right kinds (`finish_values`), and integers fit
  (`reading_inRange`);
* between two items the cursor stands in a block and a scope is open (`items_underway`);
* no counter of names comes to its end (`items_draws`): a text has fewer tokens than bytes, and no
  more than two numbers are drawn for a token.
-/

namespace ProcLang

open Ir

/-! ## The items of a text -/

/-- Items are not larger than the part of the text that they were read from. -/
theorem reading_covers (part : Section) (p : Parser) :
    blockTokens (p.reading part).1 + (p.reading part).2.2.remaining ≤ p.remaining := by
  rw [Parser.reading]
  cases hnext : p.nextItem part with
  | item stmt q lt =>
    have : q.clearErrors.remaining < p.remaining := lt
    have hitem := nextItem_covers hnext
    have hrest := reading_covers part q.clearErrors
    rw [Parser.clearErrors_remaining] at hrest
    change blockTokens (stmt :: (q.clearErrors.reading part).1) +
      (q.clearErrors.reading part).2.2.remaining ≤ p.remaining
    rw [blockTokens]
    omega
  | recovered q lt =>
    have : q.clearErrors.remaining < p.remaining := lt
    have hrest := reading_covers part q.clearErrors
    exact Nat.le_trans hrest (Nat.le_of_lt lt)
  | finished q le | ended q le => exact Nat.le_trans (Nat.le_of_eq (Nat.zero_add _)) le
termination_by p.remaining

theorem readings_covers (p : Parser) : blockTokens p.readings ≤ p.remaining := by
  have hfirst := reading_covers .declarations p
  have hsecond := reading_covers .statements (p.reading .declarations).2.2
  unfold Parser.readings
  dsimp only
  split
  · change blockTokens ((p.reading .declarations).1 ++
      ((p.reading .declarations).2.2.reading .statements).1) ≤ p.remaining
    rw [blockTokens_append]
    omega
  · exact Nat.le_trans (Nat.le_add_right _ _) hfirst

/-- All integers in items that are read have 32 bits. -/
theorem sourceItems_inRange (source : String) (options : Options) :
    ∀ stmt ∈ sourceItems source options, stmt.InRange :=
  sourceItems_yield item_inRange trivial

/-- At most all tokens of a scan are ahead of its start. -/
theorem ofScan_remaining_le (s : Scan) : (Parser.ofScan s).remaining ≤ s.tokens.length := by
  have hfirst := @Parser.pull_ahead_length_lt s.ending s.tokens
  have hsecond := @Parser.pull_ahead_length_lt s.ending (Parser.pull s.ending s.tokens).ahead
  unfold Parser.ofScan Parser.remaining Parser.kind
  dsimp only
  split
  · exact Nat.zero_le _
  · rename_i hkind
    have := hfirst hkind
    split
    · omega
    · rename_i hnext
      have := hsecond hnext
      omega

/-- The items that are read from a text are not larger than the text. -/
theorem sourceItems_tokens_le (source : String) (options : Options) :
    blockTokens (sourceItems source options) ≤ utf8Length source.toList := by
  have hstart := ofScan_remaining_le (Scan.ofString options.tabWidth source)
  have hlength := scan_length_le options.tabWidth source
  have hheader := (Parser.ofString options.tabWidth source).header.le
  change _ ≤ (Parser.ofScan _).remaining at hheader
  unfold sourceItems
  dsimp only
  split
  · exact Nat.zero_le _
  · have hreadings := readings_covers
      (Parser.ofString options.tabWidth source).header.after.clearErrors
    rw [Parser.clearErrors_remaining] at hreadings
    omega

/-! ## Between two items -/

/-- Items draw at most two numbers for each of their tokens. -/
theorem items_draws {stmts : List Stmt} {s s' : Lowering} {findings : List Diagnostic}
    (run : s.items stmts = .ok (s', findings)) : s'.drawn ≤ s.drawn + 2 * blockTokens stmts := by
  induction stmts generalizing s findings with
  | nil =>
    cases run
    exact Nat.le_refl _
  | cons stmt stmts ih =>
    obtain ⟨between, first, later, hitem, hrest, -⟩ := Lowering.items_cons_inv run
    obtain ⟨lowered, after, hlower, rfl, -⟩ := item_inv hitem
    have hfirst := (stmt_walks stmt.declaresOnly_true s).draws _ _ hlower
    have hlater := ih hrest
    change _ ≤ after.drawn + _ at hlater
    rw [blockTokens]
    omega

/-- Items are lowered, and leave a stage that is underway. -/
theorem items_underway : ∀ (stmts : List Stmt) {st : Stage} {found : List Diagnostic},
    Underway anyHeadings st found →
      ∃ st' findings, st.state.items stmts = .ok (st'.state, findings) ∧
        Underway anyHeadings st' (found ++ findings)
  | [], st, found, h => ⟨st, [], rfl, by rw [List.append_nil]; exact h⟩
  | stmt :: stmts, st, found, h => by
    obtain ⟨st1, findings, hitem, h1⟩ := h.lowers stmt
    obtain ⟨st2, later, hrest, h2⟩ := items_underway stmts h1
    refine ⟨st2, findings ++ later, Lowering.items_cons hitem hrest, ?_⟩
    rw [← List.append_assoc]
    exact h2

/-- The module is what finishing gives behind the items of the text. -/
theorem compile_lowered {source : String} {options : Options} {c : Compilation} {name : String}
    (compiled : compile source options = .ok c)
    (hname : (sourceHeader source options).value = some name) :
    ∃ last findings s, (Stage.start (options.moduleName.getD name) name).state.items
        (sourceItems source options) = .ok (last, findings) ∧
      Lower.finish last = .ok (c.module, s) := by
  obtain ⟨st, s, -, ⟨findings, hitems⟩, hfinish⟩ := @compile_between_items source options c
    compiled name hname (fun done s _ => ∃ findings,
      (Stage.start (options.moduleName.getD name) name).state.items done = .ok (s, findings))
    (fun _ => ⟨[], rfl⟩) (fun _ h => h)
    fun _ _ ⟨_, h⟩ run => ⟨_, Lowering.items_append h (Lowering.items_cons run rfl)⟩
  exact ⟨st.state, findings, s, hitems, hfinish⟩

/-! ## Within bounds -/

/-- The state is fit for the next item: instructions can be added, a scope can be closed, storage
can be reserved and names can be made up. -/
structure Lowering.Ready (s : Lowering) : Prop where
  point : ∃ index f block, s.builder.At index f block
  scope : s.symbols.pop?.isSome = true
  entries : ∀ f ∈ s.module.functions, f.blocks ≠ []
  numbers : ∀ f ∈ s.module.functions, f.nextId ≤ wordMax
  uniqueNumbers : s.symbols.nextUnique ≤ wordMax

theorem Lowering.nextId_le_drawn {s : Lowering} {f : Function} (hf : f ∈ s.module.functions) :
    f.nextId ≤ s.drawn := by
  have hsum : f.nextId ≤ (s.builder.module.functions.map Function.nextId).sum :=
    List.single_le_sum (fun _ _ => Nat.zero_le _) _ (List.mem_map.mpr ⟨f, hf, rfl⟩)
  unfold drawn Builder.drawn
  omega

theorem Underway.ready {D : Headings} {st : Stage} {found : List Diagnostic}
    (h : Underway D st found) (hdrawn : st.state.drawn ≤ wordMax) : st.state.Ready where
  point := ⟨st.index, st.fn, st.block, h.sound.placed⟩
  scope := by
    obtain ⟨scope, scopes, hlocals⟩ := List.exists_cons_of_ne_nil h.sound.symbols.nonempty
    rw [SymbolTable.pop?, hlocals]
    rfl
  entries := by
    intro f hf
    have entry : (∃ b, f.blocks[0]? = some b ∧ b.label = "entry") → f.blocks ≠ [] := by
      rintro ⟨b, hb, -⟩ hnil
      rw [hnil] at hb
      cases hb
    obtain ⟨i, hi⟩ := List.mem_iff_getElem?.mp hf
    by_cases hzero : i = 0
    · have hplaced := h.sound.placed.function
      rw [h.index, ← hzero] at hplaced
      obtain rfl : st.fn = f := Option.some.inj (hplaced.symm.trans hi)
      exact entry h.sound.code.entry
    · obtain ⟨⟨arrays, avail, hsound, -⟩, -⟩ := h.others i f hzero hi
      exact entry hsound.entry
  numbers f hf := Nat.le_trans (Lowering.nextId_le_drawn hf) hdrawn
  uniqueNumbers := by
    unfold Lowering.drawn at hdrawn
    omega

/-- Finishing a program draws at most one number. -/
theorem finish_draws (s : Lowering) (m : Module) (s' : Lowering)
    (run : Lower.finish s = .ok (m, s')) : s'.drawn ≤ s.drawn + 1 :=
  (@finish_walks (fun _ => True) s).draws m s' run

/-- **Compiling stays within bounds.** A text of less than two gigabytes whose columns fit is
compiled. It is scanned to its end, and every token can be cut out of it. Values are taken out of
tokens of the right kinds only, and the integers have 32 bits. Behind any number of its items, the
state is fit for the next one; behind all of them the program can be finished. -/
theorem compile_within_bounds {source : String} {options : Options}
    (hsize : utf8Length source.toList < 0x80000000)
    (hfit : ColumnsFit options.tabWidth source.toList) :
    (Scan.ofString options.tabWidth source).Sound source.toList ∧
    (∀ other, (Scan.ofString options.tabWidth source).SameValues other →
      (Parser.ofScan other).program.finish = Program.parse options.tabWidth source) ∧
    (∀ stmt ∈ sourceItems source options, stmt.InRange) ∧
    ∃ c, compile source options = .ok c ∧ (∀ f ∈ c.module.functions, f.nextId ≤ wordMax) ∧
      ∀ name, (Parser.ofString options.tabWidth source).header.value = some name →
        ∃ begun, (Lowering.new (options.moduleName.getD name)).begin name = .ok (begun, []) ∧
          (∀ done, done <+: sourceItems source options →
            ∃ s findings, begun.items done = .ok (s, findings) ∧ s.Ready) ∧
          ∃ last findings s, begun.items (sourceItems source options) = .ok (last, findings) ∧
            Lower.finish last = .ok (c.module, s) := by
  have hscan := scan_sound hsize hfit
  have htokens := sourceItems_tokens_le source options
  have hstart : ∀ moduleName name, (Stage.start moduleName name).state.drawn = 0 :=
    fun _ _ => rfl
  obtain ⟨e, he, -⟩ := hscan.ending
  obtain ⟨c, hc⟩ := @compile_of_scan source options (by rw [he]; rfl)
  refine ⟨hscan, fun other hother => (finish_values hother).symm,
    sourceItems_inRange source options, c, hc, ?_, fun name hname =>
      ⟨_, begin_run _ name, fun done hdone => ?_, compile_lowered hc hname⟩⟩
  · cases hname : (sourceHeader source options).value with
    | none =>
      have hnone := compile_of_none hname
      rw [hc] at hnone
      split at hnone
      · cases hnone
      · cases hnone
        exact fun f hf => by cases hf
    | some name =>
      obtain ⟨last, findings, s, hitems, hfinish⟩ := compile_lowered hc hname
      have hdrawn := items_draws hitems
      have hlast := finish_draws last _ _ hfinish
      rw [hstart] at hdrawn
      intro f hf
      rw [← finish_module hfinish] at hf
      have hnumber := Lowering.nextId_le_drawn hf
      unfold wordMax
      omega
  · obtain ⟨st, findings, hitems, h⟩ := items_underway done
      (Stage.start_underway trivial (options.moduleName.getD name) name [])
    refine ⟨st.state, findings, hitems, h.ready ?_⟩
    have hdrawn := items_draws hitems
    obtain ⟨rest, hrest⟩ := hdone
    rw [← hrest, blockTokens_append] at htokens
    rw [hstart] at hdrawn
    unfold wordMax
    omega

/-- A program with characters of several bytes in a string and a comment, a tab, an escaped quote, a
variable that is not declared and an integer that does not fit. -/
def wideText : String :=
  "program p is /* é /* ü */ */\n\tglobal variable s : string;\nbegin\n" ++
    "\ts := \"añ\\\"b\"; x := -2147483648; y := 2147483648;\nend program.\n"

/-- It is compiled within bounds. -/
theorem compile_within_bounds_wide :
    utf8Length wideText.toList < 0x80000000 ∧ ColumnsFit 8 wideText.toList ∧
      (Scan.ofString 8 wideText).Sound wideText.toList ∧
      ∃ c, compile wideText ⟨8, none⟩ = .ok c ∧ ∀ f ∈ c.module.functions, f.nextId ≤ wordMax := by
  have hsize : utf8Length wideText.toList < 0x80000000 := by decide +kernel
  have hfit : ColumnsFit 8 wideText.toList := by decide +kernel
  obtain ⟨hscan, -, -, c, hc, hnumbers, -⟩ :=
    @compile_within_bounds wideText ⟨8, none⟩ hsize hfit
  exact ⟨hsize, hfit, hscan, c, hc, hnumbers⟩

end ProcLang
