import ProcLang.Proofs.Legible
import ProcLang.Proofs.TextConstants
import ProcLang.Proofs.Widening

/-!
# Readers

A reader takes something off the front of a text. `Reads` says that a reader takes exactly what was
written for a value and gives that value, in front of whatever may follow. What may follow matters
where nothing marks the end: a name ends in front of the first character that is not one of a name,
and a list ends where no mark announces another item.

Readers are put together in the order in which their texts are written (`Reads.next`, `Reads.upTo`).
Choices are made by marks. No mark in a table begins another one (`Apart`), so that one mark fits
(`reads_oneOf`).
-/

namespace ProcLang.Ir

open Naming

/-- Takes something off the front of a text, unless it is not there. -/
abbrev Reader := StateT (List Char) Option

namespace Reader

variable {α β : Type}

/-- Takes what is read as something else, if it can be taken so. -/
def decode (x : Reader α) (f : α → Option β) : Reader β := fun text => do
  let (a, rest) ← x text
  let b ← f a
  return (b, rest)

/-- Takes the longest part from the front that has characters of one kind only. -/
def span (p : Char → Bool) : Reader (List Char) := fun text =>
  some (text.takeWhile p, text.dropWhile p)

/-- Takes one of the marks in a table and gives what stands with it. -/
def oneOf : List (String × α) → Reader α
  | [] => fun _ => none
  | (mark, a) :: table => fun text =>
    match mark.toList.isPrefixOf? text with
    | some rest => some (a, rest)
    | none => oneOf table text

/-- Takes a mark. -/
def expect (mark : String) : Reader Unit :=
  oneOf [(mark, ())]

/-- Takes a mark if it is there, and says whether it was. -/
def accept (mark : String) : Reader Bool := fun text =>
  match mark.toList.isPrefixOf? text with
  | some rest => some (true, rest)
  | none => some (false, text)

/-- Takes a name. -/
def name : Reader String :=
  String.ofList <$> span isNameChar

/-- Takes a natural number. -/
def nat : Reader Nat :=
  (Nat.ofDigitChars 10 · 0) <$> span Char.isDigit

/-- Takes a number of digits in base sixteen. -/
def hex (width : Nat) : Reader Nat := fun text =>
  ((text.take width).mapM hexValue?).map fun digits =>
    (digits.foldl (fun n digit => 16 * n + digit) 0, text.drop width)

/-- Takes at most a number of items, each with a mark in front. -/
def atMost (mark : String) (item : Reader α) : Nat → Reader (List α)
  | 0 => return []
  | count + 1 => do
    if ← accept mark then
      let a ← item
      let as ← atMost mark item count
      return a :: as
    else
      return []

/-- Takes all the items that have a mark in front. A text has no more items than characters. -/
def many (mark : String) (item : Reader α) : Reader (List α) := fun text =>
  atMost mark item text.length text

/-- Takes something and the end of the line. -/
def line (item : Reader α) : Reader α := do
  let a ← item
  expect "\n"
  return a

/-- Takes at least one item, with marks between the items, up to another mark. -/
def separated (mark close : String) (item : Reader α) : Reader (List α) := do
  let a ← item
  let as ← many mark item
  expect close
  return a :: as

/-- Takes items with commas between them, up to a mark. -/
def list (close : String) (item : Reader α) : Reader (List α) := do
  if ← accept close then
    return []
  else
    separated ", " close item

end Reader

open Reader

/-! ## What may follow -/

/-- Anything may follow. -/
def Whatever (_ : List Char) : Prop := True

/-- No character of the kind follows. -/
def Stops (p : Char → Bool) (rest : List Char) : Prop :=
  ∀ c, rest.head? = some c → p c = false

/-- The mark does not follow. -/
def Without (mark : String) (rest : List Char) : Prop :=
  ¬ mark.toList <+: rest

/-- Nothing follows, or the mark does. -/
def Before (mark : String) (rest : List Char) : Prop :=
  rest = [] ∨ mark.toList <+: rest

theorem stops_append {p : Char → Bool} {text : String} {c : Char} (hc : text.toList.head? = some c)
    (hp : p c = false) (rest : List Char) : Stops p (text.toList ++ rest) := by
  intro d hd
  rw [List.head?_append, hc] at hd
  cases hd
  exact hp

theorem Stops.mono {p q : Char → Bool} (hpq : ∀ c, q c = true → p c = true) {rest : List Char}
    (h : Stops p rest) : Stops q rest := by
  intro c hc
  cases hq : q c with
  | false => rfl
  | true => rw [← h c hc, hpq c hq]

/-- Neither text begins with the other one. -/
def Distinct (a b : String) : Prop :=
  ¬ a.toList <+: b.toList ∧ ¬ b.toList <+: a.toList

instance (a b : String) : Decidable (Distinct a b) :=
  inferInstanceAs (Decidable (_ ∧ _))

theorem Distinct.without {mark text : String} (h : Distinct mark text) (rest : List Char) :
    Without mark (text.toList ++ rest) := by
  intro hmark
  rcases List.prefix_or_prefix_of_prefix hmark (List.prefix_append text.toList rest) with hp | hp
  · exact h.1 hp
  · exact h.2 hp

/-- The first character tells. -/
theorem distinct_of_heads {a b : String} {c d : Char} (ha : a.toList.head? = some c)
    (hb : b.toList.head? = some d) (hne : c ≠ d) : Distinct a b := by
  have key : ∀ {s t : List Char} {x y : Char}, s.head? = some x → t.head? = some y → x ≠ y →
      ¬ s <+: t := by
    rintro s _ x y hs ht hxy ⟨tail, rfl⟩
    rw [List.head?_append, hs] at ht
    exact hxy (Option.some.inj ht)
  exact ⟨key ha hb hne, key hb ha hne.symm⟩

theorem without_of_head {mark text : String} {c d : Char} (hmark : mark.toList.head? = some d)
    (htext : text.toList.head? = some c) (hne : c ≠ d) (rest : List Char) :
    Without mark (text.toList ++ rest) :=
  (distinct_of_heads hmark htext hne.symm).without rest

theorem without_nil {mark : String} (h : mark.toList ≠ []) : Without mark [] :=
  fun hp => h (List.prefix_nil.mp hp)

theorem Before.without {mark mark' : String} {rest : List Char} (hrest : Before mark' rest)
    (hmark : mark.toList ≠ []) (h : Distinct mark mark') : Without mark rest := by
  rcases hrest with rfl | ⟨tail, rfl⟩
  · exact without_nil hmark
  · exact h.without tail

/-! ## Reading back -/

/-- **In front of whatever may follow**, the reader takes the text and gives the value. -/
def Reads {α : Type} (may : List Char → Prop) (x : Reader α) (text : String) (a : α) : Prop :=
  ∀ rest, may rest → x (text.toList ++ rest) = some (a, rest)

section Sequence

variable {α β : Type} {may mid : List Char → Prop} {x : Reader α} {f : α → Reader β}
  {s t mark : String} {a : α} {b : β}

theorem reads_pure (a : α) : Reads may (pure a) "" a :=
  fun _ _ => rfl

theorem Reads.decode (hx : Reads may x s a) {g : α → Option β} (hg : g a = some b) :
    Reads may (decode x g) s b := by
  intro rest hrest
  simp only [Reader.decode, hx rest hrest, Option.bind_eq_bind, Option.bind_some, hg,
    Option.pure_def]

/-- Less may follow. -/
theorem Reads.weaken (hx : Reads mid x s a) (h : ∀ rest, may rest → mid rest) : Reads may x s a :=
  fun rest hrest => hx rest (h rest hrest)

/-- One thing and then another. -/
theorem Reads.bind (hx : Reads mid x s a) (h : ∀ rest, may rest → mid (t.toList ++ rest))
    (hf : Reads may (f a) t b) : Reads may (x >>= f) (s ++ t) b := by
  intro rest hrest
  have hfirst := hx (t.toList ++ rest) (h rest hrest)
  rw [String.toList_append, List.append_assoc]
  calc (x >>= f) (s.toList ++ (t.toList ++ rest))
      = (x (s.toList ++ (t.toList ++ rest))).bind fun p => f p.1 p.2 := rfl
    _ = f a (t.toList ++ rest) := by rw [hfirst]; rfl
    _ = some (b, rest) := hf rest hrest

/-- The end of the first thing is seen without what follows. -/
theorem Reads.next (hx : Reads Whatever x s a) (hf : Reads may (f a) t b) :
    Reads may (x >>= f) (s ++ t) b :=
  hx.bind (fun _ _ => trivial) hf

/-- The first thing ends at a mark. -/
theorem Reads.upTo (hx : Reads mid x s a) (h : ∀ rest, mid (mark.toList ++ rest))
    (hf : Reads may (f a) (mark ++ t) b) : Reads may (x >>= f) (s ++ (mark ++ t)) b := by
  refine hx.bind (fun rest _ => ?_) hf
  rw [String.toList_append, List.append_assoc]
  exact h _

/-- What is last. -/
theorem Reads.ends (hx : Reads may x s a) (hf : f a = pure b) : Reads may (x >>= f) s b := by
  have hend : ∀ rest, may rest → may ("".toList ++ rest) := fun _ hrest => hrest
  have h := hx.bind (f := f) hend (hf ▸ reads_pure b)
  rwa [String.append_empty] at h

theorem Reads.last (hx : Reads may x s a) (g : α → β) :
    Reads may (x >>= fun a => pure (g a)) s (g a) :=
  hx.ends rfl

/-- **A text** reads as one value only. -/
theorem Reads.unique (hs : Reads Whatever x s a) {a' : α} (ht : Reads Whatever x t a')
    {u v : String} (h : s ++ u = t ++ v) : a = a' ∧ u = v := by
  have htext : x (s ++ u).toList = x (t ++ v).toList := by rw [h]
  rw [String.toList_append, String.toList_append, hs _ trivial, ht _ trivial] at htext
  obtain ⟨ha, hrest⟩ := Prod.mk.inj (Option.some.inj htext)
  exact ⟨ha, String.toList_inj.mp hrest⟩

theorem Reads.map (hx : Reads may x s a) (g : α → β) : Reads may (g <$> x) s (g a) := by
  rw [map_eq_pure_bind]
  exact hx.last g

end Sequence

/-! ## Marks -/

/-- No mark of the table begins another one. -/
def Apart {α : Type} (table : List (String × α)) : Prop :=
  (table.map Prod.fst).Pairwise Distinct

instance {α : Type} (table : List (String × α)) : Decidable (Apart table) :=
  inferInstanceAs (Decidable (List.Pairwise _ _))

section Marks

variable {α : Type} {may : List Char → Prop} {mark t : String}

theorem isPrefixOf?_append (mark : String) (rest : List Char) :
    mark.toList.isPrefixOf? (mark.toList ++ rest) = some rest :=
  List.isPrefixOf?_eq_some_iff_append_eq.mpr rfl

theorem isPrefixOf?_without {text : List Char} (h : Without mark text) :
    mark.toList.isPrefixOf? text = none := by
  cases hp : mark.toList.isPrefixOf? text with
  | none => rfl
  | some rest => exact absurd ⟨rest, List.isPrefixOf?_eq_some_iff_append_eq.mp hp⟩ h

/-- **One mark fits.** -/
theorem reads_oneOf : ∀ {table : List (String × α)} {a : α}, Apart table → (mark, a) ∈ table →
    Reads may (oneOf table) mark a
  | (mark', a') :: table, a, hapart, hmem, rest, hrest => by
    obtain ⟨hhead, htail⟩ := List.pairwise_cons.mp hapart
    rcases List.mem_cons.mp hmem with heq | hmem
    · cases heq
      simp only [oneOf, isPrefixOf?_append]
    · -- the marks in front of the right one do not fit, whatever follows it
      have hdistinct : Distinct mark' mark := hhead mark (List.mem_map_of_mem hmem)
      simp only [oneOf, isPrefixOf?_without (hdistinct.without rest)]
      exact reads_oneOf htail hmem rest hrest

theorem reads_mark (mark : String) : Reads may (expect mark) mark () :=
  reads_oneOf (List.pairwise_singleton _ _) List.mem_cons_self

theorem reads_expect {β : Type} {f : Unit → Reader β} {b : β} (hf : Reads may (f ()) t b) :
    Reads may (expect mark >>= f) (mark ++ t) b :=
  Reads.next (reads_mark mark) hf

/-- A mark that ends what is read. -/
theorem reads_close (mark : String) (a : α) : Reads may (expect mark >>= fun _ => pure a) mark a :=
  (reads_mark mark).last fun _ => a

theorem reads_yes {x y : Reader α} {a : α} (hx : Reads may x t a) :
    Reads may (do if ← accept mark then x else y) (mark ++ t) a := by
  have haccept : Reads Whatever (accept mark) mark true := by
    intro rest _
    simp only [accept, isPrefixOf?_append]
  exact haccept.next hx

theorem reads_no {x y : Reader α} {a : α} (h : ∀ rest, may rest → Without mark (t.toList ++ rest))
    (hy : Reads may y t a) : Reads may (do if ← accept mark then x else y) t a := by
  have haccept : Reads (Without mark) (accept mark) "" false := by
    intro rest hrest
    simp only [String.toList_empty, List.nil_append, accept, isPrefixOf?_without hrest]
  have hboth := haccept.bind (f := fun b => if b = true then x else y) h hy
  rwa [String.empty_append] at hboth

end Marks

/-! ## Names and numbers -/

theorem reads_span {p : Char → Bool} {text : String} (h : ∀ c ∈ text.toList, p c = true) :
    Reads (Stops p) (span p) text text.toList := by
  intro rest hrest
  have hstop : rest.takeWhile p = [] ∧ rest.dropWhile p = rest := by
    cases rest with
    | nil => exact ⟨rfl, rfl⟩
    | cons c rest =>
      have hc := hrest c rfl
      exact ⟨List.takeWhile_cons_of_neg (by rw [hc]; exact Bool.false_ne_true),
        List.dropWhile_cons_of_neg (by rw [hc]; exact Bool.false_ne_true)⟩
  rw [span, List.takeWhile_append_of_pos h, List.dropWhile_append_of_pos h, hstop.1, hstop.2,
    List.append_nil]

/-- A name ends in front of what is no character of a name. -/
abbrev Ended : List Char → Prop := Stops isNameChar

theorem reads_name {n : String} (h : Legible n) : Reads Ended name n n := by
  have := (reads_span h).map String.ofList
  rwa [String.ofList_toList] at this

theorem ended_digits {rest : List Char} (h : Ended rest) : Stops Char.isDigit rest :=
  h.mono fun c hc => by rw [isNameChar, Lexeme.isWordChar_of_isDigit hc, Bool.true_or]

theorem reads_nat (n : Nat) : Reads Ended nat (toString n) n := by
  have hdigits := (reads_span fun c hc => isDigit_of_mem_toString (n := n) hc).map
    (Nat.ofDigitChars 10 · 0)
  rw [Nat.toString_eq_repr, Nat.toList_repr, Nat.ofDigitChars_ten_toDigits] at hdigits
  rw [Nat.toString_eq_repr]
  exact hdigits.weaken fun _ => ended_digits

theorem toString_head (n : Nat) : ∃ c, (toString n).toList.head? = some c ∧ c.isDigit = true := by
  cases hlist : (toString n).toList with
  | nil =>
    rw [Nat.toString_eq_repr, Nat.toList_repr] at hlist
    exact absurd hlist Nat.toDigits_ne_nil
  | cons c cs => exact ⟨c, rfl, isDigit_of_mem_toString (n := n) (hlist ▸ List.mem_cons_self)⟩

theorem length_hexDigits (width n : Nat) : (hexDigits width n).length = width := by
  induction width generalizing n with
  | zero => rfl
  | succ width ih => rw [hexDigits, List.length_append, ih, List.length_singleton]

theorem mapM_hexDigits (width n : Nat) :
    ∃ digits, (hexDigits width n).mapM hexValue? = some digits ∧
    digits.foldl (fun n digit => 16 * n + digit) 0 = n % Nat.pow 16 width := by
  induction width generalizing n with
  | zero => exact ⟨[], rfl, (Nat.mod_one n).symm⟩
  | succ width ih =>
    obtain ⟨digits, hdigits, hvalue⟩ := ih (n / 16)
    obtain ⟨hlast, -⟩ := hexDigit_spec (n % 16) (Nat.mod_lt n (by decide))
    refine ⟨digits ++ [n % 16], ?_, ?_⟩
    · rw [hexDigits, List.mapM_append, hdigits]
      simp [hlast]
    · rw [List.foldl_append, hvalue]
      show 16 * (n / 16 % Nat.pow 16 width) + n % 16 = n % Nat.pow 16 (width + 1)
      rw [Nat.pow_eq, Nat.pow_eq, Nat.pow_succ', Nat.mod_mul, Nat.add_comm]

/-- **A number in base sixteen** reads back if it has enough digits. -/
theorem reads_hex {width n : Nat} (h : n < Nat.pow 16 width) :
    Reads Whatever (hex width) (String.ofList (hexDigits width n)) n := by
  intro rest _
  obtain ⟨digits, hdigits, hvalue⟩ := mapM_hexDigits width n
  rw [hex, String.toList_ofList, List.take_left' (length_hexDigits width n),
    List.drop_left' (length_hexDigits width n), hdigits, Option.map_some, hvalue,
    Nat.mod_eq_of_lt h]

/-! ## Lists -/

section Lists

variable {α : Type} {may ok : List Char → Prop} {mark : String} {item : Reader α}
  {write : α → String}

/-- What may stand in front of a mark may stand in front of items with marks. -/
theorem join_follows (hmark : ∀ rest, ok (mark.toList ++ rest)) (as : List α) {rest : List Char}
    (hrest : ok rest) : ok ((String.join (as.map fun a => mark ++ write a)).toList ++ rest) := by
  cases as with
  | nil => exact hrest
  | cons a as =>
    rw [List.map_cons, String.join_cons, String.append_assoc, String.toList_append,
      List.append_assoc]
    exact hmark _

/-- **Items with marks in front** are read as long as there is another mark. -/
theorem reads_atMost (hmark : ∀ rest, ok (mark.toList ++ rest))
    (hmay : ∀ rest, may rest → ok rest ∧ Without mark rest) : ∀ {as : List α} {count : Nat},
      as.length ≤ count → (∀ a ∈ as, Reads ok item (write a) a) →
      Reads may (atMost mark item count) (String.join (as.map fun a => mark ++ write a)) as
  | [], 0, _, _ => reads_pure []
  | [], count + 1, _, _ => reads_no (fun rest hrest => (hmay rest hrest).2) (reads_pure [])
  | a :: as, count + 1, hcount, hitems => by
    obtain ⟨ha, has⟩ := List.forall_mem_cons.mp hitems
    have hmore := reads_atMost hmark hmay (Nat.le_of_succ_le_succ hcount) has
    rw [List.map_cons, String.join_cons, String.append_assoc, atMost]
    refine reads_yes (ha.bind (fun rest hrest => ?_) (hmore.last _))
    exact join_follows hmark as (hmay rest hrest).1

/-- A text has no more items than characters. -/
theorem length_le_join (hne : mark.toList ≠ []) : ∀ as : List α,
    as.length ≤ (String.join (as.map fun a => mark ++ write a)).toList.length
  | [] => Nat.zero_le _
  | a :: as => by
    have hmore := length_le_join hne as
    have hpos := List.length_pos_of_ne_nil hne
    rw [List.map_cons, String.join_cons, String.toList_append, String.toList_append,
      List.length_append, List.length_append, List.length_cons]
    omega

theorem reads_many (hne : mark.toList ≠ []) (hmark : ∀ rest, ok (mark.toList ++ rest))
    (hmay : ∀ rest, may rest → ok rest ∧ Without mark rest) {as : List α}
    (hitems : ∀ a ∈ as, Reads ok item (write a) a) :
    Reads may (many mark item) (String.join (as.map fun a => mark ++ write a)) as := by
  intro rest hrest
  refine reads_atMost hmark hmay ?_ hitems rest hrest
  rw [List.length_append]
  exact Nat.le_add_right_of_le (length_le_join hne as)

theorem reads_line {a : α} (h : Reads Ended item (write a) a) :
    Reads Whatever (line item) (write a ++ "\n") a :=
  h.bind (fun rest _ => stops_append rfl rfl rest) (reads_close "\n" a)

/-- **Lines that begin with a mark.** -/
theorem reads_lines (hne : mark.toList ≠ []) {as : List α}
    (hitems : ∀ a ∈ as, Reads Ended item (write a) a) :
    Reads (Without mark) (many mark (line item))
      (String.join (as.map fun a => mark ++ (write a ++ "\n"))) as :=
  reads_many hne (fun _ => trivial : ∀ rest, Whatever (mark.toList ++ rest))
    (fun _ hrest => ⟨trivial, hrest⟩) fun a ha => reads_line (hitems a ha)

theorem intercalate_cons (sep first : String) : ∀ parts : List String,
    sep.intercalate (first :: parts) = first ++ String.join (parts.map (sep ++ ·))
  | [] => by rw [String.intercalate_singleton, List.map_nil, String.join_nil, String.append_empty]
  | part :: parts => by
    rw [String.intercalate_cons_cons, intercalate_cons sep part parts, List.map_cons,
      String.join_cons, String.append_assoc, String.append_assoc]

/-- **Items with marks between them.** What may follow an item is the mark or the end. -/
theorem reads_separated {close : String} (hne : mark.toList ≠ []) (hdistinct : Distinct mark close)
    (hmark : ∀ rest, ok (mark.toList ++ rest)) (hclose : ∀ rest, ok (close.toList ++ rest))
    {as : List α} (has : as ≠ []) (hitems : ∀ a ∈ as, Reads ok item (write a) a) :
    Reads may (separated mark close item) (mark.intercalate (as.map write) ++ close) as := by
  obtain ⟨a, as, rfl⟩ := List.exists_cons_of_ne_nil has
  obtain ⟨ha, has⟩ := List.forall_mem_cons.mp hitems
  have hmore : Reads (close.toList <+: ·) (many mark item)
      (String.join (as.map fun a => mark ++ write a)) as := by
    refine reads_many hne hmark ?_ has
    rintro _ ⟨tail, rfl⟩
    exact ⟨hclose tail, hdistinct.without tail⟩
  rw [List.map_cons, intercalate_cons, List.map_map, String.append_assoc]
  refine ha.bind (fun rest _ => ?_) (hmore.bind (fun _ _ => List.prefix_append _ _)
    (reads_close close _))
  rw [String.toList_append, List.append_assoc]
  exact join_follows hmark as (hclose rest)

/-- **Items with commas between them**, none of which begins with the bracket that closes the list.
-/
theorem reads_listed {close : String} {d : Char} (hclose : close.toList.head? = some d)
    (hd : ',' ≠ d)
    (hcomma : ∀ rest, ok (", ".toList ++ rest)) (hend : ∀ rest, ok (close.toList ++ rest))
    {as : List α} (hitems : ∀ a ∈ as, Reads ok item (write a) a)
    (hheads : ∀ a ∈ as, ∃ c, (write a).toList.head? = some c ∧ c ≠ d) :
    Reads may (list close item) (commaSeparated (as.map write) ++ close) as := by
  cases as with
  | nil =>
    have htext : commaSeparated (([] : List α).map write) ++ close = close ++ "" := by
      rw [List.map_nil, commaSeparated, String.intercalate_nil, String.empty_append,
        String.append_empty]
    rw [htext]
    exact reads_yes (reads_pure [])
  | cons a as =>
    obtain ⟨c, hc, hne⟩ := hheads a List.mem_cons_self
    have hdistinct : Distinct ", " close := distinct_of_heads rfl hclose hd
    refine reads_no (fun rest _ => ?_) (reads_separated (by decide) hdistinct hcomma hend
      (List.cons_ne_nil a as) hitems)
    rw [commaSeparated, List.map_cons, intercalate_cons, String.append_assoc, String.toList_append,
      List.append_assoc]
    exact without_of_head hclose hc hne _

theorem reads_list {close : String} (hclose : close.toList.head? = some ')') {as : List α}
    (hitems : ∀ a ∈ as, Reads Ended item (write a) a)
    (hheads : ∀ a ∈ as, ∃ c, (write a).toList.head? = some c ∧ c ≠ ')') :
    Reads may (list close item) (commaSeparated (as.map write) ++ close) as :=
  reads_listed hclose (by decide) (stops_append rfl rfl) (stops_append hclose rfl) hitems hheads

end Lists

end ProcLang.Ir
