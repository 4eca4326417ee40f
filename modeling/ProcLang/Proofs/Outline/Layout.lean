import ProcLang.Tree.Outline

/-!
# Indentation

An outline is a list of entries, and each of them is a line with further entries below it, indented
by one more level (`Entry.render`). The indentation is all that says where the entries below a line
end. It says enough: two lists of entries with the same text are the same (`renderAll_inj`), if no
label goes over the end of a line or begins with a blank, and labels with the same text are the same
(`Labelled`).

What follows the entries of a level is indented less (`Shallow`), so that none of it is taken for
another entry of the list.
-/

namespace ProcLang.Outline

/-- A line of an outline, and the entries below it. -/
inductive Entry (α : Type) where
  | node (label : α) (below : List (Entry α))

variable {α : Type}

mutual

/-- The text of an entry. -/
@[simp]
def Entry.render (text : α → String) (level : Nat) : Entry α → String
  | .node label below => outlineLine level (text label) ++ renderAll text (level + 1) below

/-- The text of entries that follow each other. -/
@[simp]
def renderAll (text : α → String) (level : Nat) : List (Entry α) → String
  | [] => ""
  | entry :: entries => entry.render text level ++ renderAll text level entries

end

theorem renderAll_append (text : α → String) (level : Nat) : ∀ front back : List (Entry α),
    renderAll text level (front ++ back) = renderAll text level front ++ renderAll text level back
  | [], back => String.empty_append.symm
  | entry :: front, back => by
    rw [List.cons_append, renderAll, renderAll, renderAll_append text level front back,
      String.append_assoc]

mutual

/-- All labels of the entry are of a kind. -/
def Entry.Fair (fair : α → Prop) : Entry α → Prop
  | .node label below => fair label ∧ AllFair fair below

/-- All labels of the entries are of a kind. -/
def AllFair (fair : α → Prop) : List (Entry α) → Prop
  | [] => True
  | entry :: entries => entry.Fair fair ∧ AllFair fair entries

end

theorem allFair_append {fair : α → Prop} : ∀ {front back : List (Entry α)}, AllFair fair front →
    AllFair fair back → AllFair fair (front ++ back)
  | [], _, _, hback => hback
  | _ :: _, _, hfront, hback => ⟨hfront.1, allFair_append hfront.2 hback⟩

/-- The labels of a kind stand on one line, do not begin with a blank, and are told apart by their
texts. -/
structure Labelled (text : α → String) (fair : α → Prop) : Prop where
  start : ∀ {a}, fair a → ∃ c, (text a).toList.head? = some c ∧ c ≠ ' '
  line : ∀ {a}, fair a → '\n' ∉ (text a).toList
  inj : ∀ {a b}, fair a → fair b → text a = text b → a = b

/-! ## Lines -/

/-- The number of blanks at the start of a text. -/
def indentation (rest : List Char) : Nat :=
  (rest.takeWhile (· == ' ')).length

/-- Nothing follows, or a line that is indented less. -/
def Shallow (level : Nat) (rest : List Char) : Prop :=
  rest = [] ∨ indentation rest < 2 * level

variable {level : Nat}

theorem Shallow.succ {rest : List Char} (h : Shallow level rest) : Shallow (level + 1) rest :=
  h.imp id fun hlt => by omega

theorem toList_outlineLine (level : Nat) (text : String) (rest : List Char) :
    (outlineLine level text).toList ++ rest =
      List.replicate (2 * level) ' ' ++ (text.toList ++ '\n' :: rest) := by
  rw [outlineLine, String.toList_append, String.toList_append, String.toList_ofList,
    List.append_assoc, List.append_assoc]
  rfl

/-- A line is indented by its level. -/
theorem indentation_outlineLine {text : String} (h : ∃ c, text.toList.head? = some c ∧ c ≠ ' ')
    (rest : List Char) : indentation ((outlineLine level text).toList ++ rest) = 2 * level := by
  obtain ⟨c, hc, hne⟩ := h
  obtain ⟨cs, hcs⟩ : ∃ cs, text.toList = c :: cs := List.head?_eq_some_iff.mp hc
  have hblanks : ∀ d ∈ List.replicate (2 * level) ' ', (d == ' ') = true := by
    intro d hd
    rw [List.eq_of_mem_replicate hd]
    rfl
  rw [toList_outlineLine, hcs, indentation, List.takeWhile_append_of_pos hblanks, List.cons_append,
    List.takeWhile_cons_of_neg (by simpa using hne), List.append_nil, List.length_replicate]

/-- What stands in front of the first mark is determined by the list. -/
theorem split_at_first {β : Type} {mark : β} : ∀ {a b s t : List β}, mark ∉ a → mark ∉ b →
    a ++ mark :: s = b ++ mark :: t → a = b ∧ s = t
  | [], [], _, _, _, _, h => ⟨rfl, (List.cons.inj h).2⟩
  | [], c :: b, _, _, _, hb, h => by
    obtain ⟨rfl, -⟩ := List.cons.inj h
    exact absurd List.mem_cons_self hb
  | c :: a, [], _, _, ha, _, h => by
    obtain ⟨rfl, -⟩ := List.cons.inj h
    exact absurd List.mem_cons_self ha
  | c :: a, d :: b, _, _, ha, hb, h => by
    obtain ⟨rfl, htail⟩ := List.cons.inj h
    obtain ⟨rfl, hrest⟩ := split_at_first (fun hmem => ha (List.mem_cons_of_mem _ hmem))
      (fun hmem => hb (List.mem_cons_of_mem _ hmem)) htail
    exact ⟨rfl, hrest⟩

/-- A line on the same level is determined by the text. -/
theorem outlineLine_inj {text text' : String} {rest rest' : List Char} (h : '\n' ∉ text.toList)
    (h' : '\n' ∉ text'.toList)
    (heq : (outlineLine level text).toList ++ rest = (outlineLine level text').toList ++ rest') :
    text = text' ∧ rest = rest' := by
  rw [toList_outlineLine, toList_outlineLine] at heq
  obtain ⟨htext, hrest⟩ := split_at_first h h' (List.append_cancel_left heq)
  exact ⟨String.toList_inj.mp htext, hrest⟩

/-! ## Entries -/

section Entries

variable {text : α → String} {fair : α → Prop} (labelled : Labelled text fair)

include labelled

theorem indentation_render {entry : Entry α} (h : entry.Fair fair) (rest : List Char) :
    indentation ((entry.render text level).toList ++ rest) = 2 * level := by
  obtain ⟨label, below⟩ := entry
  rw [Entry.render, String.toList_append, List.append_assoc]
  exact indentation_outlineLine (labelled.start h.1) _

/-- What follows an entry is not below it. -/
theorem shallow_renderAll {entries : List (Entry α)} (h : AllFair fair entries) {rest : List Char}
    (hrest : Shallow level rest) :
    Shallow (level + 1) ((renderAll text level entries).toList ++ rest) := by
  cases entries with
  | nil => exact hrest.succ
  | cons entry entries =>
    right
    rw [renderAll, String.toList_append, List.append_assoc, indentation_render labelled h.1]
    omega

/-- What is indented less is no entry. -/
theorem not_shallow {entry : Entry α} (h : entry.Fair fair) (rest : List Char) :
    ¬ Shallow level ((entry.render text level).toList ++ rest) := by
  have hindent : indentation ((entry.render text level).toList ++ rest) = 2 * level :=
    indentation_render labelled h rest
  rintro (hnil | hlt)
  · obtain ⟨label, below⟩ := entry
    rw [Entry.render, String.toList_append, List.append_assoc, toList_outlineLine] at hnil
    simp at hnil
  · omega

mutual

/-- **An entry** is determined by a text that begins with it. -/
theorem render_inj : ∀ {entry entry' : Entry α} {level : Nat} {rest rest' : List Char},
    entry.Fair fair → entry'.Fair fair → Shallow (level + 1) rest → Shallow (level + 1) rest' →
      (entry.render text level).toList ++ rest = (entry'.render text level).toList ++ rest' →
      entry = entry' ∧ rest = rest'
  | .node label below, .node label' below', level, rest, rest', h, h', hrest, hrest', heq => by
    rw [Entry.render, Entry.render, String.toList_append, String.toList_append, List.append_assoc,
      List.append_assoc] at heq
    obtain ⟨htext, hbelow⟩ := outlineLine_inj (labelled.line h.1) (labelled.line h'.1) heq
    obtain rfl := labelled.inj h.1 h'.1 htext
    obtain ⟨rfl, rfl⟩ := renderAll_inj h.2 h'.2 hrest hrest' hbelow
    exact ⟨rfl, rfl⟩

/-- **Entries on one level** are determined by a text that begins with them, if what follows is
indented less. -/
theorem renderAll_inj : ∀ {entries entries' : List (Entry α)} {level : Nat}
    {rest rest' : List Char},
    AllFair fair entries → AllFair fair entries' → Shallow level rest → Shallow level rest' →
      (renderAll text level entries).toList ++ rest =
        (renderAll text level entries').toList ++ rest' →
      entries = entries' ∧ rest = rest'
  | [], [], _, _, _, _, _, _, _, heq => ⟨rfl, heq⟩
  | [], entry' :: entries', level, rest, rest', _, h', hrest, _, heq => by
    have hentry : rest = (entry'.render text level).toList ++
        ((renderAll text level entries').toList ++ rest') := by
      rw [← List.append_assoc, ← String.toList_append]
      exact heq
    exact absurd (hentry ▸ hrest) (not_shallow labelled h'.1 _)
  | entry :: entries, [], level, rest, rest', h, _, _, hrest', heq => by
    have hentry : rest' = (entry.render text level).toList ++
        ((renderAll text level entries).toList ++ rest) := by
      rw [← List.append_assoc, ← String.toList_append]
      exact heq.symm
    exact absurd (hentry ▸ hrest') (not_shallow labelled h.1 _)
  | entry :: entries, entry' :: entries', level, rest, rest', h, h', hrest, hrest', heq => by
    rw [renderAll, renderAll, String.toList_append, String.toList_append, List.append_assoc,
      List.append_assoc] at heq
    obtain ⟨rfl, htail⟩ := render_inj h.1 h'.1 (shallow_renderAll labelled h.2 hrest)
      (shallow_renderAll labelled h'.2 hrest') heq
    obtain ⟨rfl, rfl⟩ := renderAll_inj h.2 h'.2 hrest hrest' htail
    exact ⟨rfl, rfl⟩

end

end Entries

end ProcLang.Outline
