import ProcLang.Compile
import ProcLang.Proofs.TextConstants

/-!
# The header of a module

The name of a module is written twice at the top of its text: as it is in a comment, and between
quotes, with escapes, in the line behind it. A name may hold any characters.

* `Module.render_parts`: behind the comment the text is what it should be, whatever the name: a line
  from whose quoted part the name can be read back, and then a text in which the name plays no part;
* `Module.HeaderHolds`: the comment is one line, and those two are what follows it;
* `module_header_holds_iff`: this is so exactly if no character of the name ends a line. A line feed
  in a name ends the comment, and the rest of the name is read as code
  (`compile_name_read_as_code`).
-/

namespace ProcLang.Ir

/-! ## Lines -/

/-- The characters that end a line. It depends on the reader which ones these are, but the line feed
is one of them, and none of the printable characters of ASCII is. -/
structure LineEnds where
  ends : Char → Bool
  feed : ends '\n' = true
  printable : ∀ c : Char, 0x20 ≤ c.toNat → c.toNat ≤ 0x7E → ends c = false

namespace LineEnds

/-- Only a line feed ends a line. -/
def lineFeed : LineEnds where
  ends c := c == '\n'
  feed := rfl
  printable c hlow _ := by
    rw [beq_eq_false_iff_ne]
    rintro rfl
    exact absurd hlow (by decide)

variable (l : LineEnds)

/-- The first line of a text. -/
def line (text : List Char) : List Char :=
  text.takeWhile (!l.ends ·)

/-- What stands behind the first line of a text. -/
def behind (text : List Char) : List Char :=
  (text.dropWhile (!l.ends ·)).tail

variable {l} {a : List Char} {c : Char}

theorem line_append (ha : ∀ d ∈ a, l.ends d = false) (hc : l.ends c = true) (rest : List Char) :
    l.line (a ++ c :: rest) = a := by
  have hline : ∀ d ∈ a, (!l.ends d) = true := fun d hd => by rw [ha d hd]; rfl
  rw [line, List.takeWhile_append_of_pos hline, List.takeWhile_cons_of_neg (by simp [hc]),
    List.append_nil]

theorem behind_append (ha : ∀ d ∈ a, l.ends d = false) (hc : l.ends c = true) (rest : List Char) :
    l.behind (a ++ c :: rest) = rest := by
  have hline : ∀ d ∈ a, (!l.ends d) = true := fun d hd => by rw [ha d hd]; rfl
  rw [behind, List.dropWhile_append_of_pos hline, List.dropWhile_cons_of_neg (by simp [hc]),
    List.tail_cons]

/-- A line ends at the first character that ends one. -/
theorem length_line_le (hc : l.ends c = true) (a rest : List Char) :
    (l.line (a ++ c :: rest)).length ≤ a.length := by
  unfold line
  induction a with
  | nil => simp [hc]
  | cons d a ih =>
    rw [List.cons_append, List.takeWhile_cons]
    split
    · exact Nat.succ_le_succ ih
    · exact Nat.zero_le _

/-- No line ends within a text of printable characters. -/
theorem printable_text (l : LineEnds) {text : String}
    (h : text.toList.all (fun c => decide (0x20 ≤ c.toNat ∧ c.toNat ≤ 0x7E)) = true) :
    ∀ c ∈ text.toList, l.ends c = false := by
  intro c hc
  obtain ⟨hlow, hhigh⟩ := of_decide_eq_true (List.all_eq_true.mp h c hc)
  exact l.printable c hlow hhigh

/-- A text in which a line ends has a first character that ends one. -/
theorem exists_first {text : List Char} (h : ∃ c ∈ text, l.ends c = true) :
    ∃ a c rest, text = a ++ c :: rest ∧ (∀ d ∈ a, l.ends d = false) ∧ l.ends c = true := by
  obtain ⟨c, hc⟩ := Option.isSome_iff_exists.mp (List.find?_isSome.mpr h)
  obtain ⟨hends, a, rest, htext, ha⟩ := List.find?_eq_some_iff_append.mp hc
  exact ⟨a, c, rest, htext, fun d hd => by simpa using ha d hd, hends⟩

end LineEnds

/-! ## Quoted names -/

/-- There are no more bytes than characters between the quotes. -/
theorem length_of_unescape {text : List Char} {bytes : List UInt8}
    (h : unescape text = some bytes) :
    bytes.length ≤ text.length := by
  fun_induction unescape text generalizing bytes with
  | case1 =>
    cases h
    exact Nat.le_refl _
  | case2 high low rest ih =>
    simp only [Option.bind_eq_bind, Option.bind_eq_some_iff, Option.pure_def,
      Option.some.injEq] at h
    obtain ⟨-, -, -, -, more, hmore, rfl⟩ := h
    have := ih hmore
    simp only [List.length_cons]
    omega
  | case3 => cases h
  | case4 c rest _ _ ih =>
    obtain ⟨more, hmore, rfl⟩ := Option.map_eq_some_iff.mp h
    exact Nat.succ_le_succ (ih hmore)

/-- A text has no more characters than bytes. -/
theorem length_le_bytes (s : String) : s.toList.length ≤ s.toUTF8.data.toList.length := by
  rw [← utf8Bytes_eq, utf8Bytes]
  induction s.toList with
  | nil => exact Nat.le_refl _
  | cons c cs ih =>
    have hc : 0 < (String.utf8EncodeChar c).length := by
      rw [String.length_utf8EncodeChar]
      exact c.utf8Size_pos
    rw [List.flatMap_cons, List.length_append, List.length_cons]
    omega

theorem unescape_name (name : String) :
    unescape (escape name).toList = some name.toUTF8.data.toList := by
  have h := unescape_escape name []
  rwa [List.append_nil, unescape, Option.map_some, List.append_nil] at h

/-! ## Headers -/

/-- What is written behind the header of a module. -/
def contentsText (globals : List Global) (declarations : List Declaration)
    (functions : List Function) : String :=
  paragraph (globals.map Global.render) ++ paragraph (declarations.map Declaration.render) ++
    String.join (functions.map fun f => "\n" ++ f.render)

/-- What stands in front of the name in the comment at the top of a module. -/
def commentOpening : List Char :=
  "; ModuleID = '".toList

/-- What stands in front of the quoted name of a module. -/
def sourceOpening : List Char :=
  "source_filename = \"".toList

/-- The line that gives the name of a module, without its end. -/
def sourceLine (quoted : List Char) : List Char :=
  sourceOpening ++ quoted ++ ['"']

/-- The quoted text is printable, without quotes, and stands for the name. -/
def Quotes (quoted : List Char) (name : String) : Prop :=
  (∀ c ∈ quoted, Printable c) ∧ unescape quoted = some name.toUTF8.data.toList

theorem quotes_escape (name : String) : Quotes (escape name).toList name :=
  ⟨fun _ hc => mem_escape hc, unescape_name name⟩

theorem LineEnds.sourceLine_ends (l : LineEnds) {quoted : List Char} {name : String}
    (h : Quotes quoted name) : ∀ c ∈ sourceLine quoted, l.ends c = false := by
  intro c hc
  rw [sourceLine, List.mem_append, List.mem_append, List.mem_singleton] at hc
  rcases hc with (hc | hc) | rfl
  · exact l.printable_text (by decide +kernel) c hc
  · exact l.printable c (h.1 c hc).1 (h.1 c hc).2.1
  · exact l.printable _ (by decide) (by decide)

/-- The first line of the module is a comment, its second one gives the name between quotes, and all
further text is made from the contents alone. -/
structure Module.HeaderHolds (l : LineEnds) (m : Module) : Prop where
  comment : (l.line m.render.toList).head? = some ';'
  source : ∃ quoted, Quotes quoted m.name ∧
    l.line (l.behind m.render.toList) = sourceLine quoted
  contents : l.behind (l.behind m.render.toList) =
    (contentsText m.globals m.declarations m.functions).toList

theorem LineEnds.commentOpening_ends (l : LineEnds) : ∀ c ∈ commentOpening, l.ends c = false :=
  l.printable_text (by decide +kernel)

/-- **The text of a module** is a comment with the name as it is, the line with the name between
quotes, and the text of the contents. -/
theorem Module.render_parts (m : Module) :
    m.render.toList = commentOpening ++ (m.name.toList ++ '\'' :: '\n' ::
      (sourceLine (escape m.name).toList ++
        '\n' :: (contentsText m.globals m.declarations m.functions).toList)) := by
  unfold render header contentsText commentOpening sourceLine sourceOpening
  simp only [String.toList_append, List.append_assoc]
  rfl

section Header

variable {l : LineEnds} {m : Module}

theorem Module.headerHolds_of_ends (h : ∀ c ∈ m.name.toList, l.ends c = false) :
    m.HeaderHolds l := by
  have hcomment : ∀ c ∈ commentOpening ++ (m.name.toList ++ ['\'']), l.ends c = false := by
    have hquote : l.ends '\'' = false := l.printable _ (by decide) (by decide)
    intro c hc
    rw [List.mem_append, List.mem_append, List.mem_singleton] at hc
    rcases hc with hc | hc | rfl
    · exact l.commentOpening_ends c hc
    · exact h c hc
    · exact hquote
  have hsource := l.sourceLine_ends (quotes_escape m.name)
  have htext : m.render.toList = commentOpening ++ (m.name.toList ++ ['\'']) ++ '\n' ::
      (sourceLine (escape m.name).toList ++
        '\n' :: (contentsText m.globals m.declarations m.functions).toList) := by
    rw [m.render_parts]
    simp only [List.append_assoc, List.singleton_append]
  refine ⟨?_, ⟨_, quotes_escape m.name, ?_⟩, ?_⟩
  · rw [htext, LineEnds.line_append hcomment l.feed]
    rfl
  · rw [htext, LineEnds.behind_append hcomment l.feed, LineEnds.line_append hsource l.feed]
  · rw [htext, LineEnds.behind_append hcomment l.feed, LineEnds.behind_append hsource l.feed]

/-- If a line ends within the name, the second line begins there and is too short to give the name.
-/
theorem Module.not_source_of_ends (h : ∃ c ∈ m.name.toList, l.ends c = true) {quoted : List Char}
    (hquotes : Quotes quoted m.name) : l.line (l.behind m.render.toList) ≠ sourceLine quoted := by
  intro hline
  obtain ⟨front, c, back, hname, hfront, hc⟩ := LineEnds.exists_first h
  have hcomment : ∀ d ∈ commentOpening ++ front, l.ends d = false :=
    List.forall_mem_append.mpr ⟨l.commentOpening_ends, hfront⟩
  have htext : m.render.toList = commentOpening ++ front ++ c :: ((back ++ ['\'']) ++ '\n' ::
      (sourceLine (escape m.name).toList ++
        '\n' :: (contentsText m.globals m.declarations m.functions).toList)) := by
    rw [m.render_parts, hname]
    simp only [List.append_assoc, List.cons_append, List.nil_append]
  have hshort : (sourceLine quoted).length ≤ (back ++ ['\'']).length := by
    rw [← hline, htext, LineEnds.behind_append hcomment hc]
    exact LineEnds.length_line_le l.feed _ _
  have hbytes : m.name.toList.length ≤ quoted.length :=
    Nat.le_trans (length_le_bytes m.name) (length_of_unescape hquotes.2)
  rw [hname] at hbytes
  simp only [sourceLine, List.length_append, List.length_cons, List.length_nil] at hshort hbytes
  omega

end Header

/-- **When the header of a module holds.** Whatever the name and the contents of a module are, its
text is a comment with the name in it as it is, the line with the name between quotes, and a text
that is made from the contents alone. These are the first line, the second line and the rest, so
that no part of the name is read as code, exactly if no character of the name ends a line. -/
theorem module_header_holds_iff (l : LineEnds) (m : Module) :
    (∃ quoted, Quotes quoted m.name ∧
      m.render = "; ModuleID = '" ++ m.name ++ "'\n" ++ String.ofList (sourceLine quoted) ++ "\n" ++
        contentsText m.globals m.declarations m.functions) ∧
      (m.HeaderHolds l ↔ ∀ c ∈ m.name.toList, l.ends c = false) := by
  refine ⟨⟨_, quotes_escape m.name, ?_⟩, fun holds c hc => ?_, Module.headerHolds_of_ends⟩
  · apply String.toList_inj.mp
    rw [m.render_parts]
    simp only [String.toList_append, String.toList_ofList, List.append_assoc]
    rfl
  · obtain ⟨quoted, hquotes, hline⟩ := holds.source
    cases hends : l.ends c with
    | false => rfl
    | true => exact absurd hline (Module.not_source_of_ends ⟨c, hc, hends⟩ hquotes)

end ProcLang.Ir

namespace ProcLang

open Ir

/-- A name with a line feed in it, behind which there is code. -/
def brokenName : String :=
  "a\n@x = global i32 7 ;"

/-- **A name that is read as code.** A program is compiled without an error to a module of this
name. The second line of its text comes from the name, and it defines global data that the module
does not have. -/
theorem compile_name_read_as_code :
    ∃ c, compile "program p is begin end program." { moduleName := some brokenName } = .ok c ∧
      c.hasErrors = false ∧ c.module.name = brokenName ∧ c.module.globals = [] ∧
      LineEnds.lineFeed.line (LineEnds.lineFeed.behind c.module.render.toList) =
        "@x = global i32 7 ;'".toList ∧
      ¬ c.module.HeaderHolds .lineFeed := by
  have evaluated : (compile "program p is begin end program."
      { moduleName := some brokenName }).toOption.any (fun c => decide (c.hasErrors = false ∧
        c.module.name = brokenName ∧ c.module.globals = [] ∧
        LineEnds.lineFeed.line (LineEnds.lineFeed.behind c.module.render.toList) =
          "@x = global i32 7 ;'".toList)) = true := by
    decide +kernel
  cases compiled : compile "program p is begin end program."
      { moduleName := some brokenName } with
  | error fault =>
    rw [compiled] at evaluated
    cases evaluated
  | ok c =>
    rw [compiled] at evaluated
    obtain ⟨hclean, hname, hglobals, hline⟩ := of_decide_eq_true evaluated
    have hends : ∃ d ∈ c.module.name.toList, LineEnds.lineFeed.ends d = true :=
      ⟨'\n', by rw [hname]; decide +kernel, rfl⟩
    refine ⟨c, rfl, hclean, hname, hglobals, hline, fun holds => ?_⟩
    obtain ⟨quoted, hquotes, hsource⟩ := holds.source
    exact Module.not_source_of_ends hends hquotes hsource

end ProcLang
