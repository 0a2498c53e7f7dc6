/-
# ContentAssist.Proofs.Pulling -- reading event after event never fails

A reader looks for delimiters in bytes and cuts names and values out by offsets that it has
remembered; a cut that misses makes the call fail.  No call ever fails
(`reading_never_fails`): each gives the next token of the text and moves the cursor on to a
later boundary, until there is nothing left, and then nothing changes any more.

The argument follows the machine of the lexer.  `Pulls` says what a call has to answer for
markup, some of which has been read: the event that the closing bracket ends, or the unfinished
one.  Each kind of markup is one lemma.  For the attributes of a tag the scan and the machine
run side by side (`Scans`), where the scan remembers offsets and the machine remembers
characters.  One character keeps them together (`scanStep_of_scans`), its other bytes change
nothing (`scanTag_of_wide`), and so does a whole tag (`pulls_scanTag`).
-/
import ContentAssist.Proofs.Boundaries
import ContentAssist.Proofs.Fragment
import ContentAssist.Proofs.Seam

namespace ContentAssist.Markup

set_option autoImplicit false

open Text

variable {cursor : Cursor} {front rest : List Char}

/-! ## What a call has to answer -/

/-- The answer for markup of which the characters of `front` have been read, up to a mode, and
others follow: the event that its bracket closes, or the unfinished one. -/
inductive Pulls (text : String) (mode : Mode) (front : List Char) :
    List Char → Option Pulled → Prop
  | finished {last : Mode} {inner : List Char} {event : Event} (rest : List Char)
      (reads : Reads mode inner [] last) (closes : last.read '>' = .finish event) :
      Pulls text mode front (inner ++ '>' :: rest)
        (some ⟨event, .inText, ⟨text, byteLength (front ++ (inner ++ ['>']))⟩⟩)
  | unfinished {last : Mode} {inner : List Char} {event : Event}
      (reads : Reads mode inner [] last) (pending : last.pending? = some event) :
      Pulls text mode front inner
        (some ⟨event, last.caret, ⟨text, byteLength (front ++ inner)⟩⟩)

/-- Some of the markup may be read first. -/
theorem Pulls.after {text : String} {mode next : Mode} {word cs : List Char}
    {result : Option Pulled} (reads : Reads mode word [] next)
    (pulls : Pulls text next (front ++ word) cs result) :
    Pulls text mode front (word ++ cs) result := by
  cases pulls with
  | finished rest inside closes =>
      have whole : Pulls text mode front _ _ := .finished rest (reads.append inside) closes
      simpa only [List.append_assoc] using whole
  | unfinished inside pending =>
      have whole : Pulls text mode front _ _ := .unfinished (reads.append inside) pending
      simpa only [List.append_assoc] using whole

theorem Pulls.cons {text : String} {mode next : Mode} {c : Char} {cs : List Char}
    {result : Option Pulled} (read : mode.read c = .stay next)
    (pulls : Pulls text next (front ++ [c]) cs result) : Pulls text mode front (c :: cs) result :=
  pulls.after (.one read)

/-- The cursor past a closing bracket. -/
theorem moveTo_past_bracket {inner : List Char}
    (text : cursor.text.toList = front ++ (inner ++ '>' :: rest)) :
    cursor.moveTo (byteLength (front ++ inner) + 1) =
      ⟨cursor.text, byteLength (front ++ (inner ++ ['>']))⟩ := by
  have past : byteLength (front ++ inner) + 1 = byteLength (front ++ (inner ++ ['>'])) := by
    rw [← List.append_assoc, byteLength_append (front ++ inner)]
    rfl
  have whole : cursor.text.toList = front ++ (inner ++ ['>']) ++ rest := by simpa using text
  rw [past, Cursor.moveTo_eq whole]

/-- The cursor at the end of the text. -/
theorem moveTo_byteSize (text : cursor.text.toList = front) :
    cursor.moveTo cursor.byteSize = ⟨cursor.text, byteLength front⟩ := by
  rw [Cursor.byteSize_eq, text]
  exact Cursor.moveTo_eq (text.trans (List.append_nil front).symm)

/-! ## Instructions -/

/-- The search for the end of an instruction and the machine agree. -/
theorem askedEnd?_cases {before : UInt8} {asked : Bool} (same : (before == 0x3F) = asked)
    (cs : List Char) :
    (∃ inner rest, cs = inner ++ '>' :: rest ∧
      Reads (.instruction asked) inner [] (.instruction true) ∧
      Cursor.askedEnd? before (utf8 cs) = some (byteLength inner)) ∨
    (∃ last, Reads (.instruction asked) cs [] (.instruction last) ∧
      Cursor.askedEnd? before (utf8 cs) = none) := by
  induction cs generalizing before asked with
  | nil => exact .inr ⟨asked, .nil _, rfl⟩
  | cons c cs ih =>
      by_cases ends : (asked && c == '>') = true
      · obtain ⟨rfl, bracket⟩ := Bool.and_eq_true_iff.mp ends
        obtain rfl : c = '>' := beq_iff_eq.mp bracket
        refine .inl ⟨[], cs, rfl, .nil _, ?_⟩
        have encoded : utf8 ('>' :: cs) = 0x3E :: utf8 cs := rfl
        rw [encoded, Cursor.askedEnd?_cons, same]
        rfl
      · have onward : (asked && c == '>') = false := Bool.eq_false_iff.mpr ends
        have read : (Mode.instruction asked).read c = .stay (.instruction (c == '?')) := by
          rw [Mode.read, if_neg ends]
        obtain ⟨last, question, moved⟩ :=
          Cursor.exists_askedEnd?_utf8_cons (by rw [same, onward]) cs
        rcases ih question with ⟨inner, rest, rfl, reads, found⟩ | ⟨next, reads, missing⟩
        · refine .inl ⟨c :: inner, rest, rfl, .cons _ read reads, ?_⟩
          rw [moved, found]
          rfl
        · refine .inr ⟨next, .cons _ read reads, ?_⟩
          rw [moved, missing]
          rfl

theorem pulls_instruction (stands : cursor.At (front ++ ['?']) rest) :
    Pulls cursor.text .opened front ('?' :: rest) (some (pullInstruction cursor)) := by
  have opens : Mode.opened.read '?' = .stay (.instruction true) := by simp [Mode.read]
  refine .cons opens ?_
  obtain ⟨before, question, searched⟩ := Cursor.exists_instructionEnd?_eq stands
  rw [pullInstruction, searched]
  rcases askedEnd?_cases question rest with
    ⟨inner, rest, rfl, reads, found⟩ | ⟨last, reads, missing⟩
  · rw [found, Option.map_some, ← byteLength_append]
    dsimp only
    rw [moveTo_past_bracket stands.text]
    exact .finished rest reads (by simp [Mode.read])
  · rw [missing, Option.map_none]
    dsimp only
    rw [moveTo_byteSize stands.text]
    exact .unfinished reads rfl

/-! ## End tags -/

/-- A name without its delimiters is plain. -/
theorem plain_of_unmarked {name : List Char}
    (unmarked : ∀ c ∈ name, (c == '>' || isSpace c) = false) :
    ∀ c ∈ name, isSpace c = false ∧ c ≠ '>' := by
  intro c listed
  obtain ⟨bracket, space⟩ := Bool.or_eq_false_iff.mp (unmarked c listed)
  exact ⟨space, beq_eq_false_iff_ne.mp bracket⟩

/-- An end tag whose name goes on up to a delimiter, and what else stands before the bracket. -/
theorem exists_reads_endTag {name gap : List Char}
    (unmarked : ∀ c ∈ name, (c == '>' || isSpace c) = false)
    (ends : ∀ c ∈ gap.head?, (c == '>' || isSpace c) = true)
    (unclosed : ∀ c ∈ gap, (c == '>') = false) :
    ∃ mode, Reads .opened ('/' :: (name ++ gap)) [] mode ∧
      mode.pending? = some (.endTag (String.ofList name)) ∧ mode.caret = .inEndTag ∧
      mode.read '>' = .finish (.endTag (String.ofList name)) := by
  have plain : Plain (String.ofList name) := by
    intro c listed
    rw [String.toList_ofList] at listed
    exact plain_of_unmarked unmarked c listed
  have parted : ∀ c ∈ gap.head?, isSpace c = true := by
    intro c first
    have delimiter := ends c first
    rwa [unclosed c (List.mem_of_mem_head? first), Bool.false_or] at delimiter
  have bracketless : '>' ∉ gap := fun bracket => absurd (unclosed '>' bracket) (by decide)
  have reads := reads_endTag_typed plain parted bracketless
  rwa [String.toList_ofList] at reads

theorem pulls_endTag (stands : cursor.At (front ++ ['/']) rest) :
    Pulls cursor.text .opened front ('/' :: rest) (pullEndTag cursor) := by
  obtain ⟨name, tail, rfl, unmarked, marked, found⟩ := Cursor.exists_word delimits_nameEnd stands
  have text : cursor.text.toList = front ++ ['/'] ++ name ++ tail := by
    rw [stands.text, List.append_assoc _ name]
  have cut := Cursor.slice?_eq_some stands.text
  have stands' := Cursor.at_moveTo text
  rw [pullEndTag, Cursor.nameEnd?, found, stands.offset, cut, Option.map_some, Cursor.tagEnd?]
  rcases Cursor.exists_first (· == '>') tail with
    unclosed | ⟨gap, c, after, rfl, unclosed, closes⟩
  · obtain ⟨mode, reads, pending, caret, -⟩ := exists_reads_endTag unmarked marked unclosed
    have whole : cursor.text.toList = front ++ '/' :: (name ++ tail) := by simpa using text
    rw [Cursor.find?_of_absent delimits_closeBracket stands' unclosed]
    dsimp only
    rw [moveTo_byteSize whole, ← caret]
    exact .unfinished reads pending
  · obtain rfl : c = '>' := beq_iff_eq.mp closes
    have ends : ∀ c ∈ gap.head?, (c == '>' || isSpace c) = true :=
      fun c first => marked c (List.mem_head?_append_of_mem_head? first)
    obtain ⟨mode, reads, -, -, finishes⟩ := exists_reads_endTag unmarked ends unclosed
    have whole : cursor.text.toList = front ++ ('/' :: (name ++ gap) ++ '>' :: after) := by
      simpa using text
    have past := moveTo_past_bracket whole
    have pulls : Pulls cursor.text .opened front _ _ := .finished after reads finishes
    rw [Cursor.find?_of_first delimits_closeBracket stands' unclosed rfl]
    simp only [List.append_assoc, List.cons_append, List.nil_append] at past pulls ⊢
    rw [past]
    exact pulls

/-! ## Bytes of a tag -/

theorem Quote.ofByte?_eq {c : Char} {b : UInt8} (listed : b ∈ String.utf8EncodeChar c) :
    Quote.ofByte? b = Quote.ofChar? c := by
  have double : b = 0x22 ↔ c = '"' := (delimits_quote .double).eq_iff listed
  have single : b = 0x27 ↔ c = '\'' := (delimits_quote .single).eq_iff listed
  simp only [Quote.ofByte?, Quote.ofChar?, double, single]

section Turns

variable {c : Char} {b : UInt8} (listed : b ∈ String.utf8EncodeChar c)

include listed

theorem turn_between (offset : Nat) (tag : OpenTag) :
    Scan.between.turn cursor offset b tag =
      if c = '>' then some .close
      else if isSpace c || c == '/' then some (.onward tag .between)
      else some (.onward tag (.name offset)) := by
  simp only [Scan.turn, delimits_closeBracket.eq_iff listed, delimits_space.of_mem listed,
    delimits_slash.of_mem listed]

theorem turn_name (start offset : Nat) (tag : OpenTag) :
    (Scan.name start).turn cursor offset b tag =
      if c = '>' then some .close
      else if isSpace c then some (.onward tag .between)
      else if c = '=' then
        (cursor.slice? start offset).map fun found => .onward tag (.equals found)
      else some (.onward tag (.name start)) := by
  simp only [Scan.turn, delimits_closeBracket.eq_iff listed, delimits_space.of_mem listed,
    delimits_equals.eq_iff listed]

theorem turn_equals (found : String) (offset : Nat) (tag : OpenTag) :
    (Scan.equals found).turn cursor offset b tag =
      if c = '>' then some .close
      else (Quote.ofChar? c).elim (some (.onward tag (.equals found)))
        fun quote => some (.onward tag (.value found (offset + 1) quote)) := by
  rw [Scan.turn, Quote.ofByte?_eq listed]
  refine if_congr (delimits_closeBracket.eq_iff listed) rfl ?_
  cases Quote.ofChar? c with
  | none => rfl
  | some quote => rfl

theorem turn_value (found : String) (start : Nat) (quote : Quote) (offset : Nat) (tag : OpenTag) :
    (Scan.value found start quote).turn cursor offset b tag =
      if c = quote.char then
        (cursor.slice? start offset).map fun text =>
          .onward { tag with attributes := tag.attributes.insert found (.value text) } .between
      else some (.onward tag (.value found start quote)) := by
  simp only [Scan.turn, (delimits_quote quote).eq_iff listed]

end Turns

/-- Inside a name or a value a byte above ASCII changes nothing. -/
theorem turn_of_wide {b : UInt8} (wide : 128 ≤ b.toNat) {scan : Scan} (inside : scan ≠ .between)
    (offset : Nat) (tag : OpenTag) : scan.turn cursor offset b tag = some (.onward tag scan) := by
  have bracket : b ≠ 0x3E := delimits_closeBracket.ne_of_wide wide
  cases scan with
  | between => exact absurd rfl inside
  | name start =>
      have equals : b ≠ 0x3D := delimits_equals.ne_of_wide wide
      simp [Scan.turn, bracket, delimits_space.narrow b wide, equals]
  | equals found =>
      have double : b ≠ 0x22 := (delimits_quote .double).ne_of_wide wide
      have single : b ≠ 0x27 := (delimits_quote .single).ne_of_wide wide
      simp [Scan.turn, bracket, Quote.ofByte?, double, single]
  | value found start quote =>
      simp [Scan.turn, (delimits_quote quote).ne_of_wide wide]

theorem scanTag_of_wide {more : List UInt8} (wide : ∀ b ∈ more, 128 ≤ b.toNat) {scan : Scan}
    (inside : scan ≠ .between) (bytes : List UInt8) (offset : Nat) (tag : OpenTag) :
    scanTag cursor (more ++ bytes) offset tag scan =
      scanTag cursor bytes (offset + more.length) tag scan := by
  induction more generalizing offset with
  | nil => rfl
  | cons b more ih =>
      rw [List.cons_append, scanTag, turn_of_wide (wide b List.mem_cons_self) inside]
      dsimp only
      rw [ih fun d listed => wide d (List.mem_cons_of_mem b listed), List.length_cons]
      congr 1
      omega

/-- A character whose bytes turn the scan is passed over as a whole; only an ASCII character
leaves the scan between attributes. -/
theorem scanTag_of_onward {c : Char} {tag next : OpenTag} {scan after : Scan}
    (turn : ∀ b ∈ String.utf8EncodeChar c,
      scan.turn cursor (byteLength front) b tag = some (.onward next after))
    (narrow : after = .between → c.toNat < 128) (cs : List Char) :
    scanTag cursor (utf8 (c :: cs)) (byteLength front) tag scan =
      scanTag cursor (utf8 cs) (byteLength (front ++ [c])) next after := by
  obtain ⟨b, more, encoded, wide, single⟩ := exists_encode_eq_cons c
  have first := turn b (by rw [encoded]; exact List.mem_cons_self)
  have size : byteLength (front ++ [c]) = byteLength front + 1 + more.length := by
    rw [byteLength_append, byteLength_cons, ← String.length_utf8EncodeChar, encoded,
      List.length_cons, byteLength_nil]
    omega
  rw [utf8_cons, encoded, List.cons_append, scanTag, first, size]
  dsimp only
  -- between attributes another byte would begin a name, so there must be none
  by_cases between : after = .between
  · rw [single (narrow between)]
    rfl
  · exact scanTag_of_wide wide between (utf8 cs) _ next

/-- A bracket that turns the scan closes the tag. -/
theorem scanTag_of_close {before cs : List Char} {last : Char} {tag : OpenTag} {scan : Scan}
    (text : cursor.text.toList = before ++ [last] ++ '>' :: cs)
    (turn : ∀ b ∈ String.utf8EncodeChar '>',
      scan.turn cursor (byteLength (before ++ [last])) b tag = some .close) :
    scanTag cursor (utf8 ('>' :: cs)) (byteLength (before ++ [last])) tag scan =
      some ⟨tag.close last, .inText, ⟨cursor.text, byteLength (before ++ [last] ++ ['>'])⟩⟩ := by
  have encoded : utf8 ('>' :: cs) = 0x3E :: utf8 cs := rfl
  have past := moveTo_past_bracket (text.trans (List.append_assoc before [last] _))
  rw [encoded, scanTag, turn 0x3E List.mem_cons_self]
  dsimp only
  rw [past, Cursor.slashBefore_eq text, OpenTag.close, List.append_assoc]

/-! ## Attributes of a tag -/

/-- The scan of a tag and the machine, past the same characters.  The scan knows the offset at
which the machine began to collect. -/
inductive Scans : List Char → Mode → OpenTag → Scan → Prop
  | between (before : List Char) (last : Char) (tag : OpenTag) :
      Scans (before ++ [last]) (.between tag last) tag .between
  | name (before : List Char) (last : Char) (typed : List Char) (tag : OpenTag) :
      Scans (before ++ (last :: typed).reverse) (.attributeName tag (last :: typed)) tag
        (.name (byteLength before))
  | equals (before : List Char) (last : Char) (tag : OpenTag) (found : String) :
      Scans (before ++ [last]) (.equals tag found last) tag (.equals found)
  | value (before typed : List Char) (tag : OpenTag) (found : String) (quote : Quote) :
      Scans (before ++ typed.reverse) (.value tag found quote typed) tag
        (.value found (byteLength before) quote)

/-- What a character does to both: it closes the tag, or they go on together. -/
inductive ScanStep (cursor : Cursor) (front : List Char) (c : Char) (cs : List Char)
    (mode : Mode) (result : Option Pulled) : Prop
  | close {event : Event} (bracket : c = '>') (read : mode.read c = .finish event)
      (pulled : result =
        some ⟨event, .inText, ⟨cursor.text, byteLength (front ++ [c])⟩⟩)
  | onward {next : Mode} {tag : OpenTag} {scan : Scan} (read : mode.read c = .stay next)
      (scans : Scans (front ++ [c]) next tag scan)
      (pulled : result = scanTag cursor (utf8 cs) (byteLength (front ++ [c])) tag scan)

/-- The scan takes the turn that the machine takes. -/
theorem ScanStep.of_turn {c : Char} {cs : List Char} {mode next : Mode} {tag tag' : OpenTag}
    {scan after : Scan} (read : mode.read c = .stay next)
    (scans : Scans (front ++ [c]) next tag' after)
    (turn : ∀ b ∈ String.utf8EncodeChar c,
      scan.turn cursor (byteLength front) b tag = some (.onward tag' after))
    (narrow : after = .between → c.toNat < 128) :
    ScanStep cursor front c cs mode
      (scanTag cursor (utf8 (c :: cs)) (byteLength front) tag scan) :=
  .onward read scans (scanTag_of_onward turn narrow cs)

theorem scanStep_between {before cs : List Char} {last c : Char} {tag : OpenTag}
    (text : cursor.text.toList = before ++ [last] ++ c :: cs) :
    ScanStep cursor (before ++ [last]) c cs (.between tag last)
      (scanTag cursor (utf8 (c :: cs)) (byteLength (before ++ [last])) tag .between) := by
  by_cases bracket : c = '>'
  · subst bracket
    have read : (Mode.between tag last).read '>' = .finish (tag.close last) := by simp [Mode.read]
    refine .close rfl read (scanTag_of_close text fun b listed => ?_)
    rw [turn_between listed, if_pos rfl]
  · by_cases gap : (isSpace c || c == '/') = true
    · have read : (Mode.between tag last).read c = .stay (.between tag c) := by
        rw [Mode.read, if_neg bracket, if_pos gap]
      have narrow : c.toNat < 128 := (delimits_space.or delimits_slash).toNat_lt gap
      refine .of_turn read (.between _ c tag) (fun b listed => ?_) (fun _ => narrow)
      rw [turn_between listed, if_neg bracket, if_pos gap]
    · have read : (Mode.between tag last).read c = .stay (.attributeName tag [c]) := by
        rw [Mode.read, if_neg bracket, if_neg gap]
      have began : Scans (before ++ [last] ++ [c]) (.attributeName tag [c]) tag
          (.name (byteLength (before ++ [last]))) := .name _ c [] tag
      refine .of_turn read began (fun b listed => ?_) (by simp)
      rw [turn_between listed, if_neg bracket, if_neg gap]

theorem scanStep_name {before typed cs : List Char} {last c : Char} {tag : OpenTag}
    (text : cursor.text.toList = before ++ (last :: typed).reverse ++ c :: cs) :
    ScanStep cursor (before ++ (last :: typed).reverse) c cs (.attributeName tag (last :: typed))
      (scanTag cursor (utf8 (c :: cs)) (byteLength (before ++ (last :: typed).reverse)) tag
        (.name (byteLength before))) := by
  by_cases bracket : c = '>'
  · subst bracket
    have read : (Mode.attributeName tag (last :: typed)).read '>' = .finish (tag.close last) := by
      simp [Mode.read]
    refine .close rfl read ?_
    rw [List.reverse_cons, ← List.append_assoc] at text ⊢
    refine scanTag_of_close text fun b listed => ?_
    rw [turn_name listed, if_pos rfl]
  · by_cases space : isSpace c = true
    · have read : (Mode.attributeName tag (last :: typed)).read c = .stay (.between tag c) := by
        rw [Mode.read, if_neg bracket, if_pos space]
      have narrow : c.toNat < 128 := delimits_space.toNat_lt space
      refine .of_turn read (.between _ c tag) (fun b listed => ?_) (fun _ => narrow)
      rw [turn_name listed, if_neg bracket, if_pos space]
    · by_cases equals : c = '='
      · have read : (Mode.attributeName tag (last :: typed)).read c =
            .stay (.equals tag (spell (last :: typed)) c) := by
          rw [Mode.read, if_neg bracket, if_neg space, if_pos equals]
        have cut := Cursor.slice?_eq_some (text.trans (List.append_assoc before _ _))
        refine .of_turn read (.equals _ c tag _) (fun b listed => ?_) (by simp)
        rw [turn_name listed, if_neg bracket, if_neg space, if_pos equals, cut]
        rfl
      · have read : (Mode.attributeName tag (last :: typed)).read c =
            .stay (.attributeName tag (c :: last :: typed)) := by
          rw [Mode.read, if_neg bracket, if_neg space, if_neg equals]
        have longer := Scans.name before c (last :: typed) tag
        rw [List.reverse_cons, ← List.append_assoc] at longer
        refine .of_turn read longer (fun b listed => ?_) (by simp)
        rw [turn_name listed, if_neg bracket, if_neg space, if_neg equals]

theorem scanStep_equals {before cs : List Char} {last c : Char} {tag : OpenTag} {found : String}
    (text : cursor.text.toList = before ++ [last] ++ c :: cs) :
    ScanStep cursor (before ++ [last]) c cs (.equals tag found last)
      (scanTag cursor (utf8 (c :: cs)) (byteLength (before ++ [last])) tag (.equals found)) := by
  by_cases bracket : c = '>'
  · subst bracket
    have read : (Mode.equals tag found last).read '>' = .finish (tag.close last) := by
      simp [Mode.read]
    refine .close rfl read (scanTag_of_close text fun b listed => ?_)
    rw [turn_equals listed, if_pos rfl]
  · cases quoted : Quote.ofChar? c with
    | none =>
        have read : (Mode.equals tag found last).read c = .stay (.equals tag found c) := by
          rw [Mode.read, if_neg bracket, quoted]
        refine .of_turn read (.equals _ c tag found) (fun b listed => ?_) (by simp)
        rw [turn_equals listed, if_neg bracket, quoted, Option.elim_none]
    | some quote =>
        have read : (Mode.equals tag found last).read c = .stay (.value tag found quote []) := by
          rw [Mode.read, if_neg bracket, quoted]
        have began := Scans.value (before ++ [last] ++ [c]) [] tag found quote
        rw [List.reverse_nil, List.append_nil] at began
        have narrow : c.toNat < 128 :=
          (delimits_quote quote).toNat_lt (beq_iff_eq.mpr (char_of_ofChar? quoted).symm)
        -- the offset one byte further is a boundary because a quote is one byte
        have past : byteLength (before ++ [last]) + 1 = byteLength (before ++ [last] ++ [c]) := by
          rw [byteLength_append (before ++ [last]), byteLength_cons, utf8Size_eq_one narrow]
          rfl
        refine .of_turn read began (fun b listed => ?_) (by simp)
        rw [turn_equals listed, if_neg bracket, quoted, Option.elim_some, ← past]

theorem scanStep_value {before typed cs : List Char} {c : Char} {tag : OpenTag} {found : String}
    {quote : Quote} (text : cursor.text.toList = before ++ typed.reverse ++ c :: cs) :
    ScanStep cursor (before ++ typed.reverse) c cs (.value tag found quote typed)
      (scanTag cursor (utf8 (c :: cs)) (byteLength (before ++ typed.reverse)) tag
        (.value found (byteLength before) quote)) := by
  by_cases closes : c = quote.char
  · have read : (Mode.value tag found quote typed).read c = .stay (.between
        { tag with attributes := tag.attributes.insert found (.value (spell typed)) } c) := by
      rw [Mode.read, if_pos closes]
    have cut := Cursor.slice?_eq_some (text.trans (List.append_assoc before _ _))
    have narrow : c.toNat < 128 := (delimits_quote quote).toNat_lt (beq_iff_eq.mpr closes)
    refine .of_turn read (.between _ c _) (fun b listed => ?_) (fun _ => narrow)
    rw [turn_value listed, if_pos closes, cut]
    rfl
  · have read : (Mode.value tag found quote typed).read c =
        .stay (.value tag found quote (c :: typed)) := by
      rw [Mode.read, if_neg closes]
    have longer := Scans.value before (c :: typed) tag found quote
    rw [List.reverse_cons, ← List.append_assoc] at longer
    refine .of_turn read longer (fun b listed => ?_) (by simp)
    rw [turn_value listed, if_neg closes]

/-- **One character keeps the scan and the machine together.** -/
theorem scanStep_of_scans {c : Char} {cs : List Char} {mode : Mode} {tag : OpenTag} {scan : Scan}
    (text : cursor.text.toList = front ++ c :: cs) (scans : Scans front mode tag scan) :
    ScanStep cursor front c cs mode
      (scanTag cursor (utf8 (c :: cs)) (byteLength front) tag scan) := by
  cases scans with
  | between => exact scanStep_between text
  | name => exact scanStep_name text
  | equals => exact scanStep_equals text
  | value => exact scanStep_value text

/-- Where the text ends in a tag, the scan gives what the machine holds. -/
theorem unfinished_eq {mode : Mode} {tag : OpenTag} {scan : Scan}
    (text : cursor.text.toList = front) (scans : Scans front mode tag scan) :
    ∃ event, mode.pending? = some event ∧
      scan.unfinished cursor tag =
        some ⟨event, mode.caret, ⟨cursor.text, byteLength front⟩⟩ := by
  have moved := moveTo_byteSize text
  cases scans with
  | between before last =>
      obtain ⟨b, listed, ends⟩ := Cursor.exists_getLast?_utf8 before last
      have bytes : cursor.bytes = utf8 (before ++ [last]) := by
        rw [← text]
        rfl
      refine ⟨_, rfl, ?_⟩
      rw [Scan.unfinished, bytes, ends, Option.any_some, delimits_space.of_mem listed, moved]
      rfl
  | name before last typed =>
      refine ⟨_, rfl, ?_⟩
      rw [Scan.unfinished, Cursor.sliceFrom?_eq_some text, moved]
      rfl
  | equals before last =>
      refine ⟨_, rfl, ?_⟩
      rw [Scan.unfinished, moved]
      rfl
  | value before typed tag found quote =>
      refine ⟨_, rfl, ?_⟩
      rw [Scan.unfinished, Cursor.sliceFrom?_eq_some text, moved]
      rfl

/-- **A whole tag**, by induction on the characters that follow. -/
theorem pulls_scanTag {cs : List Char} {mode : Mode} {tag : OpenTag} {scan : Scan}
    (text : cursor.text.toList = front ++ cs) (scans : Scans front mode tag scan) :
    Pulls cursor.text mode front cs
      (scanTag cursor (utf8 cs) (byteLength front) tag scan) := by
  induction cs generalizing front mode tag scan with
  | nil =>
      obtain ⟨event, pending, ended⟩ := unfinished_eq (text.trans (List.append_nil front)) scans
      have whole : Pulls cursor.text mode front [] _ := .unfinished (.nil mode) pending
      rw [List.append_nil] at whole
      rwa [utf8_nil, scanTag, ended]
  | cons c cs ih =>
      cases scanStep_of_scans text scans with
      | close bracket read pulled =>
          subst bracket
          rw [pulled]
          exact .finished cs (.nil mode) read
      | onward read scans pulled =>
          rw [pulled]
          refine .cons read (ih ?_ scans)
          rw [text, List.append_assoc]
          rfl

/-! ## Start tags -/

/-- The name of a start tag up to where it ends. -/
theorem reads_startName {name : List Char} (nonempty : name ≠ [])
    (unmarked : ∀ c ∈ name, (c == '>' || isSpace c) = false)
    (begins : ∀ c ∈ name.head?, c ≠ '?' ∧ c ≠ '/') :
    Reads .opened name [] (.startName name.reverse) := by
  have opened : Mode.opened.typedName? = some [] := rfl
  have reads := reads_moreName opened nonempty (plain_of_unmarked unmarked) fun _ => begins
  rwa [List.append_nil] at reads

/-- What ends the name of a start tag finds the machine in that name, even if it is empty. -/
theorem exists_reads_startName {name : List Char}
    (unmarked : ∀ c ∈ name, (c == '>' || isSpace c) = false)
    (begins : ∀ c ∈ name.head?, c ≠ '?' ∧ c ≠ '/') :
    ∃ mode, Reads .opened name [] mode ∧
      ∀ c, c ≠ '?' → c ≠ '/' → mode.read c = readStartName name.reverse c := by
  cases name with
  | nil =>
      refine ⟨.opened, .nil _, fun c question slash => ?_⟩
      rw [Mode.read, if_neg question, if_neg slash]
      rfl
  | cons c name =>
      exact ⟨_, reads_startName (List.cons_ne_nil c name) unmarked begins, fun _ _ _ => rfl⟩

/-- The cut gives up a slash before the bracket, and so does the machine. -/
theorem exists_cut_startName {name after : List Char}
    (stands : cursor.At front (name ++ '>' :: after)) {selfClosing : Bool}
    (slash : selfClosing = (decide (cursor.offset < byteLength (front ++ name)) &&
      slashBefore cursor (byteLength (front ++ name)))) :
    ∃ cut, cursor.slice? cursor.offset (if selfClosing then byteLength (front ++ name) - 1
        else byteLength (front ++ name)) = some cut ∧
      closeStartName name.reverse = .startTag { name := cut, selfClosing } := by
  rw [stands.offset] at slash ⊢
  rcases List.eq_nil_or_concat name with rfl | ⟨init, last, rfl⟩
  · obtain rfl : selfClosing = false := by simp [slash]
    exact ⟨_, Cursor.slice?_eq_some stands.text, rfl⟩
  · rw [List.concat_eq_append] at stands slash ⊢
    have positive := last.utf8Size_pos
    have longer : byteLength front < byteLength (front ++ (init ++ [last])) := by
      simp only [byteLength_append, byteLength_cons]
      omega
    have text : cursor.text.toList = front ++ init ++ [last] ++ '>' :: after := by
      simpa using stands.text
    rw [decide_eq_true longer, Bool.true_and, ← List.append_assoc, Cursor.slashBefore_eq text]
      at slash
    rw [List.reverse_append, List.reverse_singleton, List.singleton_append]
    by_cases closes : last = '/'
    · subst closes
      obtain rfl : selfClosing = true := slash
      have shorter : byteLength (front ++ (init ++ ['/'])) - 1 = byteLength (front ++ init) := by
        rw [← List.append_assoc, byteLength_append (front ++ init)]
        rfl
      have whole : cursor.text.toList = front ++ (init ++ ('/' :: '>' :: after)) := by
        simpa using stands.text
      rw [if_pos rfl, shorter]
      exact ⟨_, Cursor.slice?_eq_some whole, by simp [closeStartName, spell]⟩
    · obtain rfl : selfClosing = false := slash.trans (beq_eq_false_iff_ne.mpr closes)
      refine ⟨_, Cursor.slice?_eq_some stands.text, ?_⟩
      rw [closeStartName.eq_def]
      split
      · rename_i same
        exact absurd (List.cons.inj same).1 closes
      · simp [spell]

/-- The white space after the name brings the scan and the machine between attributes. -/
theorem pulls_attributes {name after : List Char} {c : Char} {mode : Mode}
    (text : cursor.text.toList = front ++ name ++ c :: after) (space : isSpace c = true)
    (reads : Reads .opened name [] mode) (read : mode.read c = readStartName name.reverse c) :
    Pulls cursor.text .opened front (name ++ c :: after)
      (scanTag cursor (utf8 (c :: after)) (byteLength (front ++ name))
        { name := String.ofList name } .between) := by
  have bracket : c ≠ '>' := ne_of_isSpace space (by decide)
  have between : mode.read c = .stay (.between { name := String.ofList name } c) := by
    rw [read, readStartName, if_neg bracket, if_pos space, spell, List.reverse_reverse]
  have turn (b : UInt8) (listed : b ∈ String.utf8EncodeChar c) :
      Scan.between.turn cursor (byteLength (front ++ name)) b { name := String.ofList name } =
        some (.onward { name := String.ofList name } .between) := by
    rw [turn_between listed, if_neg bracket, space]
    rfl
  -- the scan begins at the white space itself, with which the machine ends the name
  rw [scanTag_of_onward turn fun _ => delimits_space.toNat_lt space]
  refine .after reads (.cons between (pulls_scanTag ?_ (.between _ c _)))
  rw [text, List.append_assoc _ [c]]
  rfl

theorem pulls_startTag (stands : cursor.At front rest) (nonempty : rest ≠ [])
    (begins : ∀ c ∈ rest.head?, c ≠ '?' ∧ c ≠ '/') :
    Pulls cursor.text .opened front rest (pullStartTag cursor) := by
  rw [pullStartTag, Cursor.nameEnd?]
  rcases Cursor.exists_first (fun c => c == '>' || isSpace c) rest with
    unmarked | ⟨name, c, after, rfl, unmarked, marked⟩
  · have whole : Pulls cursor.text .opened front rest _ :=
      .unfinished (reads_startName nonempty unmarked begins) rfl
    rw [Cursor.find?_of_absent delimits_nameEnd stands unmarked]
    dsimp only
    rw [stands.offset, Cursor.sliceFrom?_eq_some stands.text, moveTo_byteSize stands.text]
    rwa [spell, List.reverse_reverse] at whole
  · have nameBegins : ∀ d ∈ name.head?, d ≠ '?' ∧ d ≠ '/' :=
      fun d first => begins d (List.mem_head?_append_of_mem_head? first)
    obtain ⟨mode, reads, goesOn⟩ := exists_reads_startName unmarked nameBegins
    have text : cursor.text.toList = front ++ name ++ c :: after := by
      rw [stands.text, List.append_assoc]
    obtain ⟨b, listed, there⟩ := Cursor.exists_byteAt? text
    rw [Cursor.find?_of_first delimits_nameEnd stands unmarked marked]
    dsimp only
    rw [there]
    simp only [Option.some.injEq, delimits_closeBracket.eq_iff listed]
    by_cases bracket : c = '>'
    · subst bracket
      obtain ⟨cut, sliced, closed⟩ := exists_cut_startName stands rfl
      have closes : mode.read '>' = .finish (closeStartName name.reverse) := by
        rw [goesOn '>' (by decide) (by decide), readStartName, if_pos rfl]
      rw [if_pos rfl, sliced, Option.map_some, moveTo_past_bracket stands.text, ← closed]
      exact .finished after reads closes
    · have space : isSpace c = true := by
        rwa [beq_eq_false_iff_ne.mpr bracket, Bool.false_or] at marked
      rw [if_neg bracket, stands.offset, Cursor.slice?_eq_some stands.text, Option.bind_some,
        Cursor.drop_bytes text]
      exact pulls_attributes text space reads
        (goesOn c (ne_of_isSpace space (by decide)) (ne_of_isSpace space (by decide)))

/-! ## The next event -/

theorem pulls_markup (stands : cursor.At front rest) :
    Pulls cursor.text .opened front rest (pullMarkup cursor) := by
  cases rest with
  | nil =>
      have whole : Pulls cursor.text .opened front [] _ := .unfinished (.nil _) rfl
      rw [List.append_nil, ← stands.eq] at whole
      rwa [pullMarkup, stands.peek?_eq_none]
  | cons c rest =>
      obtain ⟨b, listed, peeked⟩ := stands.exists_peek?
      rw [pullMarkup, peeked]
      simp only [delimits_question.eq_iff listed, delimits_slash.eq_iff listed]
      by_cases question : c = '?'
      · subst question
        rw [if_pos rfl, ← Cursor.text_advance cursor 1]
        exact pulls_instruction (stands.advance (by decide))
      · by_cases slash : c = '/'
        · subst slash
          rw [if_neg question, if_pos rfl, ← Cursor.text_advance cursor 1]
          exact pulls_endTag (stands.advance (by decide))
        · rw [if_neg question, if_neg slash]
          refine pulls_startTag stands (List.cons_ne_nil c rest) ?_
          rintro d ⟨⟩
          exact ⟨question, slash⟩

/-- A call answers with the first token of the characters ahead and stops where it ends; the
other tokens are those of the rest. -/
inductive Yields (text : String) (front cs : List Char) : Option Pulled → Prop
  | token {event : Event} {caret : Caret} (word rest : List Char) (split : cs = word ++ rest)
      (nonempty : word ≠ [])
      (reads : tokensFrom .fresh (byteLength front) cs =
        ⟨event, caret, byteLength (front ++ word)⟩ ::
          tokensFrom .fresh (byteLength (front ++ word)) rest) :
      Yields text front cs (some ⟨event, caret, ⟨text, byteLength (front ++ word)⟩⟩)

/-- Markup that closes nothing on the way is read from its bracket to the mode it leaves. -/
theorem tokensFrom_bracket {inner : List Char} {mode : Mode} (reads : Reads .opened inner [] mode)
    (more : List Char) :
    tokensFrom .fresh (byteLength front) ('<' :: (inner ++ more)) =
      tokensFrom mode (byteLength (front ++ '<' :: inner)) more := by
  have whole : Reads .fresh ('<' :: inner) [] mode := .cons .opened (by decide) reads
  rw [← List.cons_append, tokensFrom_append, closedFrom_eq_nil whole.closes, whole.leaves,
    byteLength_append front]
  rfl

theorem Pulls.yields {text : String} {cs : List Char} {result : Option Pulled}
    (pulls : Pulls text .opened (front ++ ['<']) cs result) :
    Yields text front ('<' :: cs) result := by
  cases pulls with
  | @finished last inner event rest reads closes =>
      have stop : byteLength (front ++ '<' :: inner) + 1 =
          byteLength (front ++ '<' :: (inner ++ ['>'])) := by
        rw [← List.cons_append, ← List.append_assoc, byteLength_append (front ++ '<' :: inner)]
        rfl
      have markup : stopOffset event (byteLength (front ++ '<' :: inner)) 1 =
          byteLength (front ++ '<' :: inner) + 1 := by
        cases event with
        | text content => exact absurd closes (read_ne_finish_text last '>' content)
        | _ => rfl
      have reads : tokensFrom .fresh (byteLength front) ('<' :: (inner ++ '>' :: rest)) =
          ⟨event, .inText, byteLength (front ++ '<' :: (inner ++ ['>']))⟩ ::
            tokensFrom .fresh (byteLength (front ++ '<' :: (inner ++ ['>']))) rest := by
        have content : Mode.content.Outside := trivial
        rw [tokensFrom_bracket reads, tokensFrom, closes]
        show ⟨event, .inText, stopOffset event _ 1⟩ :: tokensFrom .content (_ + 1) rest = _
        rw [markup, stop, tokensFrom_of_seam content (.inl rfl)]
        rfl
      have yields : Yields text front _ _ :=
        .token ('<' :: (inner ++ ['>'])) rest (by simp) (List.cons_ne_nil _ _) reads
      simpa only [List.append_assoc, List.singleton_append] using yields
  | @unfinished last inner event reads pending =>
      have reads : tokensFrom .fresh (byteLength front) ('<' :: cs) =
          ⟨event, last.caret, byteLength (front ++ '<' :: cs)⟩ ::
            tokensFrom .fresh (byteLength (front ++ '<' :: cs)) [] := by
        rw [← List.append_nil cs, tokensFrom_bracket reads, List.append_nil, tokensFrom,
          pendingToken, pending]
        rfl
      have yields : Yields text front _ _ :=
        .token ('<' :: cs) [] (List.append_nil _).symm (List.cons_ne_nil _ _) reads
      simpa only [List.append_assoc, List.singleton_append] using yields

/-- Text up to the next bracket. -/
theorem yields_text {c : Char} (stands : cursor.At front (c :: rest)) (plain : c ≠ '<') :
    Yields cursor.text front (c :: rest) (pullText cursor) := by
  obtain ⟨word, tail, split, unmarked, marked, found⟩ :=
    Cursor.exists_word delimits_openBracket stands
  have nonempty : word ≠ [] := by
    rintro rfl
    have bracket := marked c (by rw [← List.nil_append tail, ← split]; rfl)
    exact plain (beq_iff_eq.mp bracket)
  have free : '<' ∉ word := fun bracket => absurd (unmarked '<' bracket) (by decide)
  have text : cursor.text.toList = front ++ (word ++ tail) := by rw [stands.text, split]
  have fresh : Mode.fresh.Outside := trivial
  have reads : Reads .fresh word [] (.text (word.reverse ++ [])) := reads_text fresh free nonempty
  rw [List.append_nil] at reads
  have inText : (Mode.text word.reverse).Outside := trivial
  have parts : (Mode.text word.reverse).Parts tail := by
    cases tail with
    | nil => exact .inr (.inl rfl)
    | cons d tail => exact .inr (.inr (congrArg some (beq_iff_eq.mp (marked d rfl))))
  have tokens : tokensFrom .fresh (byteLength front) (word ++ tail) =
      ⟨.text (String.ofList word), .inText, byteLength (front ++ word)⟩ ::
        tokensFrom .fresh (byteLength (front ++ word)) tail := by
    rw [tokensFrom_append, closedFrom_eq_nil reads.closes, reads.leaves, ← byteLength_append,
      tokensFrom_of_seam inText parts]
    simp [pendingToken, Mode.pending?, Mode.caret, spell]
  rw [pullText, Cursor.tagStart?, found, stands.offset, Cursor.slice?_eq_some text, split,
    Option.map_some, Cursor.moveTo_eq (text.trans (List.append_assoc front word tail).symm)]
  exact .token word tail rfl nonempty tokens

/-! ## Calls -/

/-- A reader with something ahead reads its first token. -/
theorem exists_next {reader : Reader} {cs : List Char} (stands : reader.cursor.At front cs)
    (ahead : cs ≠ []) :
    ∃ event after word rest, cs = word ++ rest ∧ word ≠ [] ∧
      reader.next = some (some event, after) ∧
      after.cursor.text = reader.cursor.text ∧ after.cursor.At (front ++ word) rest ∧
      tokensFrom .fresh (byteLength front) cs =
        ⟨event, after.caret, after.cursor.offset⟩ ::
          tokensFrom .fresh (byteLength (front ++ word)) rest := by
  obtain ⟨c, cs, rfl⟩ := List.exists_cons_of_ne_nil ahead
  obtain ⟨b, listed, peeked⟩ := stands.exists_peek?
  have unread : ¬ reader.cursor.atEnd = true := fun ended => ahead (stands.atEnd_iff.mp ended)
  have yields : Yields reader.cursor.text front (c :: cs)
      (if reader.cursor.peek? = some 0x3C then pullMarkup (reader.cursor.advance 1)
        else pullText reader.cursor) := by
    rw [peeked]
    simp only [Option.some.injEq, delimits_openBracket.eq_iff listed]
    by_cases bracket : c = '<'
    · subst bracket
      rw [if_pos rfl, ← Cursor.text_advance reader.cursor 1]
      exact (pulls_markup (stands.advance (by decide))).yields
    · rw [if_neg bracket]
      exact yields_text stands bracket
  rw [Reader.next, if_neg unread]
  dsimp only
  generalize (if reader.cursor.peek? = some 0x3C then pullMarkup (reader.cursor.advance 1)
    else pullText reader.cursor) = pulled at yields
  cases yields with
  | @token event caret word rest split nonempty reads =>
      refine ⟨event, _, word, rest, split, nonempty, rfl, rfl, ⟨?_, rfl⟩, reads⟩
      rw [List.append_assoc, ← split]
      exact stands.text

/-- A reader with nothing ahead stays as it is. -/
theorem next_of_atEnd {reader : Reader} (ended : reader.cursor.atEnd = true) :
    reader.next = some (none, reader) := by
  rw [Reader.next, if_pos ended]

/-- **Any number of calls**, by induction on it: they give the first tokens, and the others are
those of the characters ahead. -/
theorem exists_calls (count : Nat) {reader : Reader} {cs : List Char}
    (stands : reader.cursor.At front cs) :
    ∃ last front' ahead, reader.calls count =
        some ((tokensFrom .fresh (byteLength front) cs).take count, last) ∧
      last.cursor.text = reader.cursor.text ∧ last.cursor.At front' ahead ∧
      (tokensFrom .fresh (byteLength front) cs).drop count =
        tokensFrom .fresh (byteLength front') ahead := by
  induction count generalizing reader front cs with
  | zero => exact ⟨reader, front, cs, by simp [Reader.calls], rfl, stands, rfl⟩
  | succ count ih =>
      by_cases ended : cs = []
      · subst ended
        obtain ⟨last, front', ahead, calls, same, stands', left⟩ := ih stands
        refine ⟨last, front', ahead, ?_, same, stands', ?_⟩
        · rw [Reader.calls, next_of_atEnd (stands.atEnd_iff.mpr rfl)]
          simpa [tokensFrom, pendingToken, Mode.pending?] using calls
        · simpa [tokensFrom, pendingToken, Mode.pending?] using left
      · obtain ⟨event, after, word, rest, -, -, next, kept, stands', tokens⟩ :=
          exists_next stands ended
        obtain ⟨last, front', ahead, calls, same, stands'', left⟩ := ih stands'
        refine ⟨last, front', ahead, ?_, same.trans kept, stands'', ?_⟩
        · rw [Reader.calls, next, tokens]
          dsimp only
          rw [calls]
          rfl
        · rw [tokens, List.drop_succ_cons, left]

/-- What holds of a reader of a text between two calls. -/
structure Reader.Steady (text : String) (reader : Reader) : Prop where
  text_eq : reader.cursor.text = text
  boundary : IsBoundary text.toList reader.cursor.offset
  /-- Where something is ahead, the next call reads an event and moves on. -/
  progress : reader.cursor.atEnd = false → ∃ event after,
    reader.next = some (some event, after) ∧ reader.cursor.offset < after.cursor.offset ∧
      IsBoundary text.toList after.cursor.offset
  /-- Where nothing is, it is the end of the text, and the next call changes nothing. -/
  exhausted : reader.cursor.atEnd = true →
    reader.cursor.offset = byteLength text.toList ∧ reader.next = some (none, reader)

theorem steady_of_at {reader : Reader} {cs : List Char} (stands : reader.cursor.At front cs) :
    reader.Steady reader.cursor.text where
  text_eq := rfl
  boundary := ⟨front, cs, stands.text, stands.offset.symm⟩
  progress := by
    intro unread
    have ahead : cs ≠ [] := fun nothing => by
      rw [stands.atEnd_iff.mpr nothing] at unread
      cases unread
    obtain ⟨event, after, word, rest, -, nonempty, next, kept, stands', -⟩ :=
      exists_next stands ahead
    refine ⟨event, after, next, ?_, front ++ word, rest, ?_, stands'.offset.symm⟩
    · have positive : 0 < byteLength word :=
        Nat.pos_of_ne_zero fun zero => nonempty (eq_nil_of_byteLength zero)
      rw [stands.offset, stands'.offset, byteLength_append]
      omega
    · rw [← kept]
      exact stands'.text
  exhausted := by
    intro ended
    refine ⟨?_, next_of_atEnd ended⟩
    rw [stands.offset, stands.text, stands.atEnd_iff.mp ended, List.append_nil]

/-- **Reading never fails, gets on with every call, and comes to an end.**  After any number of
calls the tokens read are the first of the text's; the reader stands at a boundary and its next
call moves it to a later one, unless it has read everything: then it stands at the end and stays
as it is.  There are at most as many tokens as bytes.  A call fails if one of its cuts does, and
a cut works exactly between boundaries in order, so no call ever cuts anywhere else. -/
theorem reading_never_fails (text : String) (count : Nat) :
    ∃ reader, (Reader.ofText text).calls count = some ((tokens text).take count, reader) ∧
      reader.Steady text ∧
      (reader.cursor.atEnd = true ↔ (tokens text).length ≤ count) ∧
      (tokens text).length ≤ byteLength text.toList ∧
      (∀ start stop, (reader.cursor.slice? start stop).isSome = true ↔
        start ≤ stop ∧ stop ≤ byteLength text.toList ∧
          IsBoundary text.toList start ∧ IsBoundary text.toList stop) ∧
      (∀ start, (reader.cursor.sliceFrom? start).isSome = true ↔
        start ≤ byteLength text.toList ∧ IsBoundary text.toList start) := by
  have begins : (Reader.ofText text).cursor.At [] text.toList := ⟨rfl, rfl⟩
  obtain ⟨reader, front, ahead, calls, same, stands, left⟩ := exists_calls count begins
  have same : reader.cursor.text = text := same
  have steady := steady_of_at stands
  rw [same] at steady
  refine ⟨reader, calls, steady, ?_, ?_, ?_, ?_⟩
  · rw [stands.atEnd_iff, ← List.drop_eq_nil_iff]
    show _ ↔ (tokensFrom .fresh (byteLength []) text.toList).drop count = []
    rw [left]
    constructor
    · rintro rfl
      rfl
    · intro nothing
      by_contra more
      exact tokensFrom_ne_nil _ (.inr more) nothing
  · exact Nat.le_trans (length_tokens_le text) (length_le_byteLength text.toList)
  · intro start stop
    rw [Cursor.slice?_isSome_iff, same]
    constructor
    · rintro ⟨order, first, second⟩
      exact ⟨order, second.le, first, second⟩
    · rintro ⟨order, -, first, second⟩
      exact ⟨order, first, second⟩
  · intro start
    rw [Cursor.sliceFrom?_isSome_iff, same]
    exact ⟨fun boundary => ⟨boundary.le, boundary⟩, And.right⟩

end ContentAssist.Markup
