import ProcLang.Proofs.Legible.Stmt
import ProcLang.Proofs.Reading.Instr
import ProcLang.Proofs.Valid

/-!
# Reading modules

`Module.read` reads a module from a text. What was written for a module reads back as the module,
except for the counters of its functions, which are not written (`Module.read_render`). For that the
names have to be legible, and two operands have to have one type where only one type is written. The
module of every text is like that, so two such modules with the same text are the same
(`compile_render_inj`).
-/

namespace ProcLang

open Ir Naming

namespace Ir

namespace Reader

/-- Takes a block. -/
def block : Reader Block := do
  let label ← name
  expect ":\n"
  let instrs ← many "  " (line instr)
  return ⟨label, instrs⟩

/-- Takes a parameter. -/
def param : Reader Param := do
  let t ← ty
  expect " %"
  let n ← name
  return ⟨n, t⟩

/-- Takes a function. -/
def function : Reader Function := do
  expect "define "
  let ret ← ty
  expect " @"
  let n ← name
  expect "("
  let params ← list ") \x7b\n" param
  let blocks ← separated "\n" "\x7d\n" block
  return ⟨n, ret, params, blocks, 0⟩

/-- Takes a declaration from behind its first word. -/
def declaration : Reader Declaration := do
  let ret ← ty
  expect " @"
  let n ← name
  expect "("
  let params ← list ")" ty
  return ⟨n, ret, params⟩

/-- Takes a quoted text with a zero byte at its end, up to the quote. -/
def textConstant : Reader String :=
  decode (span (· != '"')) fun inside =>
    (unescape inside).bind fun bytes => String.fromUTF8? bytes.dropLast.toByteArray

/-- What can stand behind the name of global data. -/
def globalKinds : List (String × (String → Reader Global)) :=
  [(" = global ", fun n => do
    let t ← ty
    expect " zeroinitializer"
    return ⟨n, t, .variable⟩),
   (" = private unnamed_addr constant ", fun n => do
    let t ← ty
    expect " c\""
    let text ← textConstant
    expect "\""
    return ⟨n, t, .text text⟩)]

/-- Takes global data from behind the sign in front of their name. -/
def global : Reader Global := do
  let n ← name
  let rest ← oneOf globalKinds
  rest n

/-- Takes an empty line and the lines behind it that begin with a mark, if there are any. -/
def lines {α : Type} (mark : String) (item : Reader α) : Reader (List α) := do
  if ← accept ("\n" ++ mark) then
    let a ← line item
    let as ← many mark (line item)
    return a :: as
  else
    return []

/-- Takes the whole text of a module. -/
def whole : Reader Module := do
  expect "; ModuleID = '"
  let n ← name
  expect ("'\n" ++ ("source_filename = \"" ++ (escape n ++ "\"\n")))
  let globals ← lines "@" global
  let declarations ← lines "declare " declaration
  let functions ← many "\n" function
  return ⟨n, globals, declarations, functions⟩

end Reader

/-- The module that has the text, if there is one. -/
def Module.read (text : String) : Option Module :=
  match Reader.whole text.toList with
  | some (m, []) => some m
  | _ => none

open Reader

/-! ## Blocks and functions -/

theorem reads_block {b : Block} (hlabel : Legible b.label)
    (hinstrs : ∀ i ∈ b.instrs, i.Legible ∧ i.Matched) : Reads (Without "  ") block b.render b := by
  simp only [Block.render, String.append_assoc]
  refine (reads_name hlabel).upTo (stops_append rfl rfl) (reads_expect ?_)
  refine Reads.last (reads_lines (by decide) fun i hi => ?_) _
  exact reads_instr (hinstrs i hi).1 (hinstrs i hi).2

theorem reads_param {p : Param} (hname : Legible p.name) : Reads Ended param p.render p := by
  rw [Param.render, String.append_assoc]
  exact (reads_ty p.ty).next (reads_expect ((reads_name hname).last _))

/-- A function whose text says all about it but its counter. -/
structure Function.Readable (f : Function) : Prop where
  legible : f.Legible
  matched : ∀ i ∈ f.instrs, i.Matched
  entry : f.blocks ≠ []

/-- The function with its counter at the start. -/
def Function.uncounted (f : Function) : Function :=
  { f with nextId := 0 }

theorem Param.render_head (p : Param) : ∃ c, p.render.toList.head? = some c ∧ c ≠ ')' := by
  obtain ⟨c, hc, -, hclose⟩ := p.ty.head_append (" %" ++ p.name)
  refine ⟨c, ?_, hclose⟩
  rw [render, String.append_assoc]
  exact hc

/-- **A function** reads back with its counter at the start. -/
theorem reads_function {f : Function} (hf : f.Readable) :
    Reads Whatever function f.render f.uncounted := by
  have hblocks : ∀ b ∈ f.blocks, Reads (Without "  ") block b.render b := fun b hb =>
    reads_block (hf.legible.labels b hb) fun i hi =>
      have hmem := Function.mem_instrs.mpr ⟨b, hb, hi⟩
      ⟨hf.legible.instrs i hmem, hf.matched i hmem⟩
  have htext : f.render = "define " ++ (f.ret.render ++ (" @" ++ (f.name ++ ("(" ++
      (commaSeparated (f.params.map Param.render) ++ ") \x7b\n" ++
        ("\n".intercalate (f.blocks.map Block.render) ++ "\x7d\n")))))) := by
    unfold Function.render
    simp only [String.append_assoc]
  rw [htext]
  refine reads_expect ((reads_ty f.ret).next (reads_expect ?_))
  refine (reads_name hf.legible.name).upTo (stops_append rfl rfl) (reads_expect ?_)
  refine Reads.next (reads_list rfl (fun p hp => reads_param (hf.legible.params p hp)) fun p _ =>
    p.render_head) ?_
  -- what follows a block is an empty line or the end, and neither is indented
  refine Reads.last (reads_separated (by decide) (by decide) ?_ ?_ hf.entry hblocks) _
  · exact fun rest => Distinct.without (by decide) rest
  · exact fun rest => Distinct.without (by decide) rest

/-! ## Declarations and global data -/

/-- What is written for a declaration behind its first word. -/
def Declaration.rest (d : Declaration) : String :=
  d.ret.render ++ (" @" ++ (d.name ++ ("(" ++ (commaSeparated (d.params.map Ty.render) ++ ")"))))

theorem Declaration.render_eq (d : Declaration) : d.render = "declare " ++ d.rest := by
  unfold render rest
  simp only [String.append_assoc]

theorem reads_declaration {d : Declaration} (hname : Legible d.name) :
    Reads Ended declaration d.rest d := by
  refine (reads_ty d.ret).next (reads_expect ?_)
  refine (reads_name hname).upTo (stops_append rfl rfl) (reads_expect ?_)
  refine (reads_list rfl (fun t _ => (reads_ty t).weaken fun _ _ => trivial) fun t _ => ?_).last _
  obtain ⟨c, hc, -, hclose⟩ := t.render_head
  exact ⟨c, hc, hclose⟩

/-- What is written for global data behind the sign in front of their name. -/
def Global.rest (g : Global) : String :=
  match g.kind with
  | .variable => g.name ++ (" = global " ++ (g.ty.render ++ " zeroinitializer"))
  | .text value =>
    g.name ++ (" = private unnamed_addr constant " ++ (g.ty.render ++ (" c\"" ++
      (quotedText value ++ "\""))))

theorem Global.render_eq (g : Global) : g.render = "@" ++ g.rest := by
  obtain ⟨name, ty, kind⟩ := g
  unfold render rest
  cases kind with
  | text value =>
    have hclose : quotedText value ++ "\"" = escape value ++ "\\00\"" :=
      String.append_assoc.trans (congrArg (escape value ++ ·) rfl)
    simp only [hclose, String.append_assoc]
  | _ => simp only [String.append_assoc]

theorem fromUTF8?_bytes (text : String) :
    String.fromUTF8? text.toUTF8.data.toList.toByteArray = some text := by
  have hbytes : text.toUTF8.data.toList.toByteArray = text.toByteArray := by
    apply ByteArray.ext
    rw [List.data_toByteArray, Array.toArray_toList, String.toUTF8_eq_toByteArray]
  rw [hbytes, String.fromUTF8?, dif_pos text.isValidUTF8]
  rfl

/-- **A quoted text** reads back. -/
theorem reads_textConstant (text : String) :
    Reads (Stops (· != '"')) textConstant (quotedText text) text := by
  refine (reads_span fun c hc => bne_iff_ne.mpr (mem_quotedText hc).2.2).decode ?_
  rw [unescape_quotedText, Option.bind_some, List.dropLast_concat, fromUTF8?_bytes]

theorem reads_global {g : Global} (hname : Legible g.name) : Reads Ended global g.rest g := by
  obtain ⟨n, t, kind⟩ := g
  cases kind with
  | text value =>
    refine (reads_name hname).upTo (stops_append rfl rfl) ?_
    refine (reads_oneOf (by decide) (.tail _ (.head _))).next ((reads_ty t).next (reads_expect ?_))
    exact (reads_textConstant value).bind (fun rest _ => stops_append rfl rfl rest)
      (reads_close _ _)
  | _ =>
    refine (reads_name hname).upTo (stops_append rfl rfl) ?_
    refine (reads_oneOf (by decide) (.head _)).next ?_
    exact (reads_ty t).next (reads_close _ _)

/-! ## Modules -/

/-- A paragraph of lines that begin with a mark. -/
theorem reads_paragraph {α : Type} {may : List Char → Prop} {mark : String} {item : Reader α}
    {write : α → String} {as : List α} (hne : mark.toList ≠ [])
    (hitems : ∀ a ∈ as, Reads Ended item (write a) a)
    (hmay : ∀ rest, may rest → Without ("\n" ++ mark) rest ∧ Without mark rest) :
    Reads may (lines mark item) (paragraph (as.map fun a => mark ++ write a)) as := by
  cases as with
  | nil => exact reads_no (fun rest hrest => (hmay rest hrest).1) (reads_pure [])
  | cons a as =>
    obtain ⟨ha, has⟩ := List.forall_mem_cons.mp hitems
    have htext : paragraph ((a :: as).map fun a => mark ++ write a) = "\n" ++ mark ++
        (write a ++ "\n" ++ String.join (as.map fun a => mark ++ (write a ++ "\n"))) := by
      simp only [paragraph, List.map_cons, List.isEmpty_cons, if_neg Bool.false_ne_true,
        List.map_map, Function.comp_def, String.join_cons, String.append_assoc]
    rw [htext]
    refine reads_yes ((reads_line ha).next (Reads.last ?_ _))
    exact (reads_lines hne has).weaken fun rest hrest => (hmay rest hrest).2

theorem reads_globals {gs : List Global} (h : ∀ g ∈ gs, Legible g.name) :
    Reads (Before "\nd") (lines "@" global) (paragraph (gs.map Global.render)) gs := by
  have htexts : gs.map Global.render = gs.map fun g => "@" ++ g.rest :=
    List.map_congr_left fun g _ => g.render_eq
  rw [htexts]
  refine reads_paragraph (by decide) (fun g hg => reads_global (h g hg)) fun rest hrest => ?_
  exact ⟨hrest.without (by decide) (by decide), hrest.without (by decide) (by decide)⟩

theorem reads_declarations {ds : List Declaration} (h : ∀ d ∈ ds, Legible d.name) :
    Reads (Before "\ndefine ") (lines "declare " declaration)
      (paragraph (ds.map Declaration.render)) ds := by
  have htexts : ds.map Declaration.render = ds.map fun d => "declare " ++ d.rest :=
    List.map_congr_left fun d _ => d.render_eq
  rw [htexts]
  refine reads_paragraph (by decide) (fun d hd => reads_declaration (h d hd)) fun rest hrest => ?_
  exact ⟨hrest.without (by decide) (by decide), hrest.without (by decide) (by decide)⟩

theorem reads_functions {fs : List Function} (h : ∀ f ∈ fs, f.Readable) :
    Reads (· = []) (many "\n" function) (String.join (fs.map fun f => "\n" ++ f.render))
      (fs.map Function.uncounted) := by
  have htexts : (fs.map fun f => "\n" ++ f.render) =
      (fs.map Function.uncounted).map fun f => "\n" ++ f.render := by
    rw [List.map_map]
    rfl
  have hmark : ∀ rest, Whatever ("\n".toList ++ rest) := fun _ => trivial
  rw [htexts]
  refine reads_many (by decide) hmark ?_ fun g hg => ?_
  · rintro rest rfl
    exact ⟨trivial, without_nil (by decide)⟩
  · obtain ⟨f, hf, rfl⟩ := List.mem_map.mp hg
    have hread := reads_function (h f hf)
    exact hread

/-- Behind the declarations there are functions. -/
theorem functions_before (fs : List Function) :
    Before "\ndefine " (String.join (fs.map fun f => "\n" ++ f.render)).toList := by
  cases fs with
  | nil => exact Or.inl rfl
  | cons f fs =>
    refine Or.inr ?_
    unfold Function.render
    simp only [List.map_cons, String.join_cons, String.append_assoc, String.toList_append]
    exact ⟨_, rfl⟩

/-- Behind the global data there are declarations or functions. -/
theorem declarations_before (ds : List Declaration) {rest : List Char}
    (hrest : Before "\ndefine " rest) :
    Before "\nd" ((paragraph (ds.map Declaration.render)).toList ++ rest) := by
  cases ds with
  | nil =>
    refine hrest.imp id fun hmark => ?_
    exact List.IsPrefix.trans (by decide) hmark
  | cons d ds =>
    refine Or.inr ?_
    unfold paragraph
    simp only [List.map_cons, List.isEmpty_cons, if_neg Bool.false_ne_true, String.join_cons,
      d.render_eq, String.append_assoc, String.toList_append, List.append_assoc]
    exact ⟨_, rfl⟩

/-- A module whose text says all about it but the counters. -/
structure Module.Readable (m : Module) : Prop where
  name : Legible m.name
  globals : ∀ g ∈ m.globals, Legible g.name
  declarations : ∀ d ∈ m.declarations, Legible d.name
  functions : ∀ f ∈ m.functions, f.Readable

/-- The module with the counters of its functions at the start. -/
def Module.uncounted (m : Module) : Module :=
  { m with functions := m.functions.map Function.uncounted }

theorem reads_whole {m : Module} (hm : m.Readable) : Reads (· = []) whole m.render m.uncounted := by
  have htext : m.render = "; ModuleID = '" ++ (m.name ++
      ("'\n" ++ ("source_filename = \"" ++ (escape m.name ++ "\"\n")) ++
        (paragraph (m.globals.map Global.render) ++
          (paragraph (m.declarations.map Declaration.render) ++
            String.join (m.functions.map fun f => "\n" ++ f.render))))) := by
    unfold Module.render Module.header
    simp only [String.append_assoc]
  have hquote : ("'\n" ++ ("source_filename = \"" ++ (escape m.name ++ "\"\n"))).toList.head? =
      some '\'' := by
    rw [String.toList_append]
    rfl
  rw [htext]
  refine reads_expect ((reads_name hm.name).upTo (stops_append hquote rfl) (reads_expect ?_))
  refine (reads_globals hm.globals).bind ?_ ((reads_declarations hm.declarations).bind ?_
    ((reads_functions hm.functions).last _))
  · rintro rest rfl
    rw [List.append_nil, String.toList_append]
    exact declarations_before _ (functions_before _)
  · rintro rest rfl
    rw [List.append_nil]
    exact functions_before _

/-- **The text of a module reads back**, whatever the counters of its functions were. -/
theorem Module.read_render {m : Module} (hm : m.Readable) :
    Module.read m.render = some m.uncounted := by
  have hwhole := reads_whole hm [] rfl
  rw [List.append_nil] at hwhole
  rw [Module.read, hwhole]

end Ir

/-! ## Compiled modules -/

theorem Routine.declaration_legible : ∀ r ∈ Routine.callable ++ [Routine.stringEquals],
    Legible r.declaration.name := by
  decide

/-- The text of the module of a text says all about it but the counters, unless the module was given
another name than that of the program. -/
theorem compile_readable {source : String} {options : Options} {c : Compilation}
    (compiled : compile source options = .ok c) (unnamed : options.moduleName = none) :
    c.module.Readable := by
  obtain ⟨s, tidy, hs⟩ := compile_tidy compiled
  obtain ⟨s', named, hs'⟩ := compile_named compiled
  rcases compile_finished source options with hcut | ⟨c', hc, hfunctions⟩
  · rw [compiled] at hcut
    cases hcut
  rw [compiled] at hc
  cases hc
  refine ⟨?_, hs ▸ tidy.globals, fun d hd => ?_, fun f hf => ?_⟩
  · cases hheader : (sourceHeader source options).value with
    | none =>
      rw [compile_headless compiled hheader, unnamed]
      decide
    | some name =>
      rw [compile_name compiled hheader, unnamed]
      exact legible_of_isWord (header_isWord hheader)
  · obtain ⟨r, hr, rfl⟩ := named.external d (hs' ▸ hd)
    exact Routine.declaration_legible r hr
  · obtain ⟨⟨arrays, avail, hsound, -, -⟩, -⟩ := hfunctions f hf
    refine ⟨tidy.functions f (hs ▸ hf), fun i hi => (hsound.typed i hi).1.matched, fun hnone => ?_⟩
    obtain ⟨b, hb, -⟩ := hsound.entry
    rw [hnone] at hb
    cases hb

/-- **The text determines the module.** If two texts are compiled and their modules, named after the
programs, have the same text, then the modules are the same: their names, global data, declarations
and functions, with all blocks, instructions, operands and types of operands. Only the counters of
the functions, which are not written, may differ. -/
theorem compile_render_inj {source source' : String} {options options' : Options}
    {c c' : Compilation} (compiled : compile source options = .ok c)
    (compiled' : compile source' options' = .ok c') (unnamed : options.moduleName = none)
    (unnamed' : options'.moduleName = none) (same : c.module.render = c'.module.render) :
    c.module.uncounted = c'.module.uncounted := by
  have hread := Module.read_render (compile_readable compiled unnamed)
  rw [same, Module.read_render (compile_readable compiled' unnamed')] at hread
  exact (Option.some.inj hread).symm

/-- A program that compares strings. -/
def comparingText : String :=
  "program t is\nvariable b : bool;\nbegin\nb := \"x\" == \"y\";\nend program."

/-- The same with a type that is ignored and an assignment that is wrong. -/
def extendedText : String :=
  "program t is type n is integer; variable b : bool;\n" ++
    "begin /* twice */ a := 1.5; b := \"x\" == \"y\"; end program."

/-- The two have the same module, since they have the same text of it. -/
theorem compile_render_inj_extended :
    ∃ c c', compile comparingText {} = .ok c ∧ compile extendedText {} = .ok c' ∧
      c.module.render = c'.module.render ∧ c.module.uncounted = c'.module.uncounted := by
  have evaluated : (compile comparingText {}).toOption.any (fun c =>
      (compile extendedText {}).toOption.any fun c' =>
        decide (c.module.render = c'.module.render)) = true := by
    decide +kernel
  cases compiled : compile comparingText {} with
  | error fault =>
    rw [compiled] at evaluated
    cases evaluated
  | ok c =>
    cases compiled' : compile extendedText {} with
    | error fault =>
      rw [compiled, compiled'] at evaluated
      cases evaluated
    | ok c' =>
      rw [compiled, compiled'] at evaluated
      have same : c.module.render = c'.module.render := of_decide_eq_true evaluated
      exact ⟨c, c', rfl, rfl, same, compile_render_inj compiled compiled' rfl rfl same⟩

end ProcLang
