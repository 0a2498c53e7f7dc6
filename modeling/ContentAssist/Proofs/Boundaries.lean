/-
# ContentAssist.Proofs.Boundaries -- bytes, characters and where texts may be cut

A byte offset is a *boundary* of a text when whole characters end there (`IsBoundary`).  Cutting
a text by offsets works exactly at boundaries that are in order (`slice?_isSome_iff`,
`sliceFrom?_isSome_iff`).

A character is one byte if it is ASCII, and has bytes of 128 and above only if it is not
(`utf8EncodeChar_cases`).  So a test of bytes that only ASCII bytes pass sees whole characters
(`Delimits.of_mem`).  Looking for a delimiter byte by byte finds the first character of its
kind, at a boundary (`find?_of_first`, `find?_of_absent`); a look back at one byte is a look at
the last character (`slashBefore_eq`); and the search for the end of an instruction, which
looks at two bytes at a time, goes from character to character too
(`exists_askedEnd?_utf8_cons`).
-/
import ContentAssist.Markup.Reader

namespace ContentAssist.Text

set_option autoImplicit false

/-! ## Boundaries and cuts -/

/-- Whole characters end at the offset. -/
def IsBoundary (cs : List Char) (offset : Nat) : Prop :=
  ∃ front back, cs = front ++ back ∧ byteLength front = offset

theorem dropBytes?_eq_some_iff {cs back : List Char} {n : Nat} :
    dropBytes? cs n = some back ↔ ∃ front, cs = front ++ back ∧ byteLength front = n := by
  constructor
  · intro dropped
    induction cs generalizing n with
    | nil =>
        cases n with
        | zero =>
            cases dropped
            exact ⟨[], rfl, rfl⟩
        | succ n => cases dropped
    | cons c cs ih =>
        cases n with
        | zero =>
            cases dropped
            exact ⟨[], rfl, rfl⟩
        | succ n =>
            rw [dropBytes?] at dropped
            split at dropped
            · obtain ⟨front, rfl, length⟩ := ih dropped
              exact ⟨c :: front, rfl, by rw [byteLength_cons]; omega⟩
            · cases dropped
  · rintro ⟨front, rfl, rfl⟩
    exact dropBytes?_byteLength_append front back

theorem takeBytes?_eq_some_iff {cs front : List Char} {n : Nat} :
    takeBytes? cs n = some front ↔ ∃ back, cs = front ++ back ∧ byteLength front = n := by
  constructor
  · intro taken
    induction cs generalizing n front with
    | nil =>
        cases n with
        | zero =>
            cases taken
            exact ⟨[], rfl, rfl⟩
        | succ n => cases taken
    | cons c cs ih =>
        cases n with
        | zero =>
            cases taken
            exact ⟨c :: cs, rfl, rfl⟩
        | succ n =>
            rw [takeBytes?] at taken
            split at taken
            · obtain ⟨rest, found, rfl⟩ := Option.map_eq_some_iff.mp taken
              obtain ⟨back, rfl, length⟩ := ih found
              exact ⟨back, rfl, by rw [byteLength_cons]; omega⟩
            · cases taken
  · rintro ⟨back, rfl, rfl⟩
    exact takeBytes?_byteLength_append front back

theorem IsBoundary.le {cs : List Char} {offset : Nat} (boundary : IsBoundary cs offset) :
    offset ≤ byteLength cs := by
  obtain ⟨front, back, rfl, rfl⟩ := boundary
  rw [byteLength_append]
  omega

theorem eq_nil_of_byteLength {cs : List Char} (nothing : byteLength cs = 0) : cs = [] := by
  cases cs with
  | nil => rfl
  | cons c cs =>
      have positive := c.utf8Size_pos
      rw [byteLength_cons] at nothing
      omega

/-- Of two boundaries the later one has the characters of the earlier one before it. -/
theorem exists_between_boundaries {cs front other : List Char} (first : front <+: cs)
    (second : other <+: cs) (order : byteLength front ≤ byteLength other) :
    ∃ word, other = front ++ word := by
  rcases List.prefix_or_prefix_of_prefix first second with ⟨word, longer⟩ | ⟨word, longer⟩
  · exact ⟨word, longer.symm⟩
  · have nothing : word = [] := by
      apply eq_nil_of_byteLength
      rw [← longer, byteLength_append] at order
      omega
    rw [nothing, List.append_nil] at longer
    exact ⟨[], by rw [longer, List.append_nil]⟩

namespace Cursor

theorem slice?_eq_some {cursor : Cursor} {front word back : List Char}
    (text : cursor.text.toList = front ++ (word ++ back)) :
    cursor.slice? (byteLength front) (byteLength (front ++ word)) = some (String.ofList word) := by
  have order : byteLength front ≤ byteLength (front ++ word) := by
    rw [byteLength_append]
    omega
  have width : byteLength (front ++ word) - byteLength front = byteLength word := by
    rw [byteLength_append]
    omega
  rw [slice?, if_pos order, text, dropBytes?_byteLength_append, width, Option.bind_some,
    takeBytes?_byteLength_append]
  rfl

theorem sliceFrom?_eq_some {cursor : Cursor} {front back : List Char}
    (text : cursor.text.toList = front ++ back) :
    cursor.sliceFrom? (byteLength front) = some (String.ofList back) := by
  rw [sliceFrom?, text, dropBytes?_byteLength_append]
  rfl

/-- **A cut works exactly between two boundaries in order.** -/
theorem slice?_isSome_iff (cursor : Cursor) (start stop : Nat) :
    (cursor.slice? start stop).isSome = true ↔
      start ≤ stop ∧ IsBoundary cursor.text.toList start ∧
        IsBoundary cursor.text.toList stop := by
  constructor
  · intro cut
    obtain ⟨part, found⟩ := Option.isSome_iff_exists.mp cut
    rw [slice?] at found
    split at found
    · rename_i order
      obtain ⟨word, taken, -⟩ := Option.map_eq_some_iff.mp found
      obtain ⟨rest, dropped, taken⟩ := Option.bind_eq_some_iff.mp taken
      obtain ⟨front, whole, length⟩ := dropBytes?_eq_some_iff.mp dropped
      obtain ⟨back, rfl, width⟩ := takeBytes?_eq_some_iff.mp taken
      refine ⟨order, ⟨front, word ++ back, whole, length⟩, front ++ word, back, ?_, ?_⟩
      · rw [whole, List.append_assoc]
      · rw [byteLength_append]
        omega
    · cases found
  · rintro ⟨order, ⟨front, rest, whole, rfl⟩, other, back, split, rfl⟩
    obtain ⟨word, rfl⟩ := exists_between_boundaries ⟨rest, whole.symm⟩ ⟨back, split.symm⟩ order
    rw [slice?_eq_some (by rw [split, List.append_assoc])]
    rfl

theorem sliceFrom?_isSome_iff (cursor : Cursor) (start : Nat) :
    (cursor.sliceFrom? start).isSome = true ↔ IsBoundary cursor.text.toList start := by
  constructor
  · intro cut
    obtain ⟨part, found⟩ := Option.isSome_iff_exists.mp cut
    obtain ⟨back, dropped, -⟩ := Option.map_eq_some_iff.mp found
    obtain ⟨front, whole, length⟩ := dropBytes?_eq_some_iff.mp dropped
    exact ⟨front, back, whole, length⟩
  · rintro ⟨front, back, whole, rfl⟩
    rw [sliceFrom?_eq_some whole]
    rfl

end Cursor

/-! ## Bytes of characters -/

/-- The UTF-8 form of some characters. -/
def utf8 (cs : List Char) : List UInt8 :=
  cs.flatMap String.utf8EncodeChar

@[simp] theorem utf8_nil : utf8 [] = [] := rfl

theorem utf8_cons (c : Char) (cs : List Char) :
    utf8 (c :: cs) = String.utf8EncodeChar c ++ utf8 cs :=
  List.flatMap_cons

theorem utf8_append (cs ds : List Char) : utf8 (cs ++ ds) = utf8 cs ++ utf8 ds :=
  List.flatMap_append

theorem length_utf8 (cs : List Char) : (utf8 cs).length = byteLength cs := by
  induction cs with
  | nil => rfl
  | cons c cs ih =>
      rw [utf8_cons, List.length_append, String.length_utf8EncodeChar, ih, byteLength_cons]

/-- **A character is one ASCII byte, or none of its bytes is ASCII.** -/
theorem utf8EncodeChar_cases (c : Char) :
    (c.toNat < 128 ∧ String.utf8EncodeChar c = [UInt8.ofNat c.toNat]) ∨
      (128 ≤ c.toNat ∧ ∀ b ∈ String.utf8EncodeChar c, 128 ≤ b.toNat) := by
  have whole : c.toNat = c.val.toNat := rfl
  unfold String.utf8EncodeChar
  rw [whole]
  dsimp only
  split
  · exact .inl ⟨by omega, rfl⟩
  · right
    refine ⟨by omega, ?_⟩
    split
    · simp only [List.mem_cons, List.not_mem_nil, or_false, forall_eq_or_imp, forall_eq,
        UInt8.toNat_ofNat']
      omega
    · split
      · simp only [List.mem_cons, List.not_mem_nil, or_false, forall_eq_or_imp, forall_eq,
          UInt8.toNat_ofNat']
        omega
      · simp only [List.mem_cons, List.not_mem_nil, or_false, forall_eq_or_imp, forall_eq,
          UInt8.toNat_ofNat']
        omega

theorem utf8Size_eq_one {c : Char} (ascii : c.toNat < 128) : c.utf8Size = 1 := by
  rcases utf8EncodeChar_cases c with ⟨-, single⟩ | ⟨wide, -⟩
  · rw [← String.length_utf8EncodeChar, single]
    rfl
  · omega

/-- ASCII characters are told apart by their bytes. -/
theorem byte_eq_iff {c d : Char} (first : c.toNat < 128) (second : d.toNat < 128) :
    UInt8.ofNat c.toNat = UInt8.ofNat d.toNat ↔ c = d := by
  constructor
  · intro same
    have codes := congrArg UInt8.toNat same
    rw [UInt8.toNat_ofNat', UInt8.toNat_ofNat', Nat.mod_eq_of_lt (by omega),
      Nat.mod_eq_of_lt (by omega)] at codes
    exact Char.ext (UInt32.toNat_inj.mp codes)
  · rintro rfl
    rfl

/-- A test of bytes that sees ASCII characters of some kind and nothing else. -/
structure Delimits (wanted : UInt8 → Bool) (mark : Char → Bool) : Prop where
  byte : ∀ c : Char, c.toNat < 128 → wanted (UInt8.ofNat c.toNat) = mark c
  narrow : ∀ b : UInt8, 128 ≤ b.toNat → wanted b = false
  ascii : ∀ c : Char, 128 ≤ c.toNat → mark c = false

namespace Delimits

variable {wanted other : UInt8 → Bool} {mark kind : Char → Bool}

theorem char (d : Char) (ascii : d.toNat < 128) :
    Delimits (· == UInt8.ofNat d.toNat) (· == d) where
  byte c narrow := by
    rw [Bool.eq_iff_iff, beq_iff_eq, beq_iff_eq]
    exact byte_eq_iff narrow ascii
  narrow b wide := by
    rw [beq_eq_false_iff_ne]
    rintro rfl
    rw [UInt8.toNat_ofNat'] at wide
    omega
  ascii c wide := by
    rw [beq_eq_false_iff_ne]
    rintro rfl
    omega

theorem or (first : Delimits wanted mark) (second : Delimits other kind) :
    Delimits (fun b => wanted b || other b) (fun c => mark c || kind c) where
  byte c narrow := by rw [first.byte c narrow, second.byte c narrow]
  narrow b wide := by rw [first.narrow b wide, second.narrow b wide]; rfl
  ascii c wide := by rw [first.ascii c wide, second.ascii c wide]; rfl

/-- **Each byte of a character passes the test exactly if the character is of the kind.** -/
theorem of_mem (delimits : Delimits wanted mark) {c : Char} {b : UInt8}
    (listed : b ∈ String.utf8EncodeChar c) : wanted b = mark c := by
  rcases utf8EncodeChar_cases c with ⟨ascii, single⟩ | ⟨wide, bytes⟩
  · rw [single, List.mem_singleton] at listed
    rw [listed, delimits.byte c ascii]
  · rw [delimits.narrow b (bytes b listed), delimits.ascii c wide]

/-- Characters of the kind are ASCII. -/
theorem toNat_lt (delimits : Delimits wanted mark) {c : Char} (marked : mark c = true) :
    c.toNat < 128 := by
  rcases Nat.lt_or_ge c.toNat 128 with narrow | wide
  · exact narrow
  · rw [delimits.ascii c wide] at marked
    cases marked

theorem utf8_of_not_mark (delimits : Delimits wanted mark) {cs : List Char}
    (unmarked : ∀ c ∈ cs, mark c = false) : ∀ b ∈ utf8 cs, wanted b = false := by
  intro b listed
  obtain ⟨c, member, inside⟩ := List.mem_flatMap.mp listed
  rw [delimits.of_mem inside, unmarked c member]

end Delimits

/-- The tests for one byte. -/
theorem Delimits.eq_iff {d : Char} {byte : UInt8} (delimits : Delimits (· == byte) (· == d))
    {c : Char} {b : UInt8} (listed : b ∈ String.utf8EncodeChar c) : b = byte ↔ c = d := by
  rw [← beq_iff_eq, delimits.of_mem listed, beq_iff_eq]

theorem Delimits.ne_of_wide {d : Char} {byte : UInt8} (delimits : Delimits (· == byte) (· == d))
    {b : UInt8} (wide : 128 ≤ b.toNat) : b ≠ byte :=
  beq_eq_false_iff_ne.mp (delimits.narrow b wide)

theorem delimits_openBracket : Delimits (· == 0x3C) (· == '<') :=
  Delimits.char '<' (by decide)

theorem delimits_closeBracket : Delimits (· == 0x3E) (· == '>') :=
  Delimits.char '>' (by decide)

theorem delimits_slash : Delimits (· == 0x2F) (· == '/') :=
  Delimits.char '/' (by decide)

theorem delimits_question : Delimits (· == 0x3F) (· == '?') :=
  Delimits.char '?' (by decide)

theorem delimits_equals : Delimits (· == 0x3D) (· == '=') :=
  Delimits.char '=' (by decide)

theorem delimits_quote (quote : Markup.Quote) :
    Delimits (· == quote.byte) (· == quote.char) := by
  cases quote with
  | single => exact Delimits.char '\'' (by decide)
  | double => exact Delimits.char '"' (by decide)

theorem delimits_space : Delimits Cursor.isSpaceByte isSpace :=
  (((Delimits.char ' ' (by decide)).or (Delimits.char '\t' (by decide))).or
    (Delimits.char '\n' (by decide))).or (Delimits.char '\r' (by decide))

theorem delimits_nameEnd :
    Delimits (fun b => b == 0x3E || Cursor.isSpaceByte b) (fun c => c == '>' || isSpace c) :=
  delimits_closeBracket.or delimits_space

/-- The first byte of a character and the others, none of which is ASCII. -/
theorem exists_encode_eq_cons (c : Char) :
    ∃ b more, String.utf8EncodeChar c = b :: more ∧ (∀ d ∈ more, 128 ≤ d.toNat) ∧
      (c.toNat < 128 → more = []) := by
  obtain ⟨b, more, encoded⟩ := List.exists_cons_of_ne_nil (String.utf8EncodeChar_ne_nil (c := c))
  refine ⟨b, more, encoded, ?_⟩
  rcases utf8EncodeChar_cases c with ⟨ascii, single⟩ | ⟨wide, bytes⟩
  · obtain rfl : more = [] := by
      rw [single] at encoded
      exact (List.cons.inj encoded).2.symm
    exact ⟨nofun, fun _ => rfl⟩
  · refine ⟨fun d listed => bytes d ?_, fun ascii => by omega⟩
    rw [encoded]
    exact List.mem_cons_of_mem b listed

/-! ## A cursor at a boundary -/

namespace Cursor

/-- The cursor stands between these characters. -/
structure At (cursor : Cursor) (front rest : List Char) : Prop where
  text : cursor.text.toList = front ++ rest
  offset : cursor.offset = byteLength front

variable {cursor : Cursor} {front rest : List Char}

theorem byteSize_eq (cursor : Cursor) : cursor.byteSize = byteLength cursor.text.toList :=
  length_utf8 _

theorem drop_bytes (text : cursor.text.toList = front ++ rest) :
    cursor.bytes.drop (byteLength front) = utf8 rest := by
  show (utf8 cursor.text.toList).drop _ = _
  rw [text, utf8_append, ← length_utf8, List.drop_left]

theorem moveTo_eq (text : cursor.text.toList = front ++ rest) :
    cursor.moveTo (byteLength front) = ⟨cursor.text, byteLength front⟩ := by
  have within : min (byteLength front) cursor.byteSize = byteLength front := by
    rw [byteSize_eq, text, byteLength_append]
    omega
  rw [moveTo, within]

theorem at_moveTo (text : cursor.text.toList = front ++ rest) :
    (cursor.moveTo (byteLength front)).At front rest := by
  rw [moveTo_eq text]
  exact ⟨text, rfl⟩

theorem At.atEnd_iff (stands : cursor.At front rest) : cursor.atEnd = true ↔ rest = [] := by
  rw [atEnd, decide_eq_true_iff, byteSize_eq, stands.text, stands.offset, byteLength_append]
  constructor
  · intro past
    exact eq_nil_of_byteLength (by omega)
  · rintro rfl
    exact Nat.le_refl _

/-- The byte at a boundary belongs to the character there. -/
theorem exists_byteAt? {c : Char} (text : cursor.text.toList = front ++ c :: rest) :
    ∃ b ∈ String.utf8EncodeChar c, cursor.byteAt? (byteLength front) = some b := by
  obtain ⟨b, more, encoded, -⟩ := exists_encode_eq_cons c
  refine ⟨b, by rw [encoded]; exact List.mem_cons_self, ?_⟩
  rw [byteAt?, ← List.head?_drop, drop_bytes text, utf8_cons, encoded, List.cons_append,
    List.head?_cons]

theorem At.peek?_eq_none (stands : cursor.At front []) : cursor.peek? = none := by
  rw [peek?, byteAt?, ← List.head?_drop, stands.offset, drop_bytes stands.text]
  rfl

theorem At.exists_peek? {c : Char} (stands : cursor.At front (c :: rest)) :
    ∃ b ∈ String.utf8EncodeChar c, cursor.peek? = some b := by
  rw [peek?, stands.offset]
  exact exists_byteAt? stands.text

theorem At.eq (stands : cursor.At front rest) : cursor = ⟨cursor.text, byteLength front⟩ := by
  rw [← stands.offset]

theorem text_advance (cursor : Cursor) (n : Nat) : (cursor.advance n).text = cursor.text := rfl

/-- One step past an ASCII character. -/
theorem At.advance {c : Char} (stands : cursor.At front (c :: rest)) (ascii : c.toNat < 128) :
    (cursor.advance 1).At (front ++ [c]) rest := by
  have text : cursor.text.toList = front ++ [c] ++ rest := by
    rw [stands.text, List.append_assoc]
    rfl
  have past : cursor.offset + 1 = byteLength (front ++ [c]) := by
    rw [stands.offset, byteLength_append, byteLength_cons, utf8Size_eq_one ascii, byteLength_nil]
  rw [Cursor.advance, past]
  exact at_moveTo text

/-! ## Finding delimiters -/

variable {wanted : UInt8 → Bool} {mark : Char → Bool}

/-- **The first character of the kind is found**, at the boundary before it. -/
theorem find?_of_first (delimits : Delimits wanted mark) {before after : List Char} {c : Char}
    (stands : cursor.At front (before ++ c :: after))
    (unmarked : ∀ d ∈ before, mark d = false) (marked : mark c = true) :
    cursor.find? wanted = some (byteLength (front ++ before)) := by
  obtain ⟨b, more, encoded, -⟩ := exists_encode_eq_cons c
  have passes : wanted b = true := by
    rw [delimits.of_mem (by rw [encoded]; exact List.mem_cons_self), marked]
  have absent : (utf8 before).findIdx? wanted = none :=
    List.findIdx?_eq_none_iff.mpr (delimits.utf8_of_not_mark unmarked)
  have first : (utf8 (before ++ c :: after)).findIdx? wanted = some (byteLength before) := by
    rw [utf8_append, List.findIdx?_append, absent, Option.none_or, utf8_cons, encoded,
      List.cons_append, List.findIdx?_cons, if_pos passes, length_utf8]
    simp
  rw [find?, stands.offset, drop_bytes stands.text, first, byteLength_append]
  rfl

theorem find?_of_absent (delimits : Delimits wanted mark) (stands : cursor.At front rest)
    (unmarked : ∀ d ∈ rest, mark d = false) : cursor.find? wanted = none := by
  rw [find?, stands.offset, drop_bytes stands.text,
    List.findIdx?_eq_none_iff.mpr (delimits.utf8_of_not_mark unmarked)]
  rfl

/-- Either no character is of the kind, or one is the first. -/
theorem exists_first (mark : Char → Bool) (cs : List Char) :
    (∀ c ∈ cs, mark c = false) ∨
      ∃ before c after, cs = before ++ c :: after ∧ (∀ d ∈ before, mark d = false) ∧
        mark c = true := by
  cases found : cs.find? mark with
  | none =>
      left
      intro c listed
      exact Bool.eq_false_iff.mpr (List.find?_eq_none.mp found c listed)
  | some c =>
      right
      obtain ⟨marked, before, after, split, unmarked⟩ := List.find?_eq_some_iff_append.mp found
      exact ⟨before, c, after, split, fun d listed => by simpa using unmarked d listed, marked⟩

/-- Where a word ends that goes on up to a delimiter or the end of the text. -/
theorem exists_word (delimits : Delimits wanted mark) (stands : cursor.At front rest) :
    ∃ word tail, rest = word ++ tail ∧ (∀ c ∈ word, mark c = false) ∧
      (∀ c ∈ tail.head?, mark c = true) ∧
      (cursor.find? wanted).getD cursor.byteSize = byteLength (front ++ word) := by
  rcases exists_first mark rest with unmarked | ⟨word, c, after, rfl, unmarked, marked⟩
  · refine ⟨rest, [], (List.append_nil rest).symm, unmarked, nofun, ?_⟩
    rw [find?_of_absent delimits stands unmarked, Option.getD_none, byteSize_eq, stands.text]
  · refine ⟨word, c :: after, rfl, unmarked, ?_, ?_⟩
    · rintro d ⟨⟩
      exact marked
    · rw [find?_of_first delimits stands unmarked marked, Option.getD_some]

/-! ## Looking back -/

/-- The last byte of some characters belongs to the last of them. -/
theorem exists_getLast?_utf8 (before : List Char) (c : Char) :
    ∃ b ∈ String.utf8EncodeChar c, (utf8 (before ++ [c])).getLast? = some b := by
  have some_last : String.utf8EncodeChar c ≠ [] := String.utf8EncodeChar_ne_nil
  refine ⟨_, List.getLast_mem some_last, ?_⟩
  rw [utf8_append, utf8_cons, utf8_nil, List.append_nil, List.getLast?_append,
    List.getLast?_eq_some_getLast some_last, Option.some_or]

/-- A look back at one byte is a look at the last character. -/
theorem slashBefore_eq {before after : List Char} {c : Char}
    (text : cursor.text.toList = before ++ [c] ++ after) :
    Markup.slashBefore cursor (byteLength (before ++ [c])) = (c == '/') := by
  have positive : 0 < byteLength (before ++ [c]) := by
    have := c.utf8Size_pos
    rw [byteLength_append, byteLength_cons]
    omega
  have last : cursor.byteAt? (byteLength (before ++ [c]) - 1) =
      (utf8 (before ++ [c])).getLast? := by
    show (utf8 cursor.text.toList)[_]? = _
    rw [text, utf8_append, List.getLast?_eq_getElem?, length_utf8, List.getElem?_append_left]
    rw [length_utf8]
    omega
  obtain ⟨b, listed, found⟩ := exists_getLast?_utf8 before c
  rw [Markup.slashBefore, decide_eq_true positive, Bool.true_and, last, found,
    ← delimits_slash.of_mem listed]
  rfl

/-! ## The end of an instruction -/

/-- The first closing bracket right after a question mark, in some bytes with one before
them. -/
def askedEnd? (before : UInt8) (bytes : List UInt8) : Option Nat :=
  (bytes.zip (before :: bytes)).findIdx? fun (b, before) => b == 0x3E && before == 0x3F

theorem askedEnd?_cons (before b : UInt8) (bytes : List UInt8) :
    askedEnd? before (b :: bytes) =
      if b == 0x3E && before == 0x3F then some 0 else (askedEnd? b bytes).map (· + 1) := by
  rw [askedEnd?, List.zip_cons_cons, List.findIdx?_cons]
  rfl

/-- Bytes above ASCII are passed over. -/
theorem askedEnd?_append {more : List UInt8} (wide : ∀ d ∈ more, 128 ≤ d.toNat)
    (before : UInt8) (bytes : List UInt8) :
    askedEnd? before (more ++ bytes) =
      (askedEnd? ((before :: more).getLast (List.cons_ne_nil _ _)) bytes).map
        (more.length + ·) := by
  induction more generalizing before with
  | nil => simp
  | cons d more ih =>
      have other : (d == 0x3E) = false :=
        delimits_closeBracket.narrow d (wide d List.mem_cons_self)
      have later : ∀ e ∈ more, 128 ≤ e.toNat :=
        fun e listed => wide e (List.mem_cons_of_mem d listed)
      rw [List.cons_append, askedEnd?_cons, other, Bool.false_and, if_neg (by decide), ih later,
        Option.map_map, List.getLast_cons (List.cons_ne_nil _ _)]
      congr 1
      funext n
      simp only [Function.comp_apply, List.length_cons]
      omega

/-- The search goes on past a character that does not end the instruction; what it remembers is
whether that was a question mark. -/
theorem exists_askedEnd?_utf8_cons {before : UInt8} {c : Char}
    (onward : ((before == 0x3F) && c == '>') = false) (cs : List Char) :
    ∃ last, (last == 0x3F) = (c == '?') ∧
      askedEnd? before (utf8 (c :: cs)) = (askedEnd? last (utf8 cs)).map (c.utf8Size + ·) := by
  obtain ⟨b, more, encoded, wide, -⟩ := exists_encode_eq_cons c
  refine ⟨(b :: more).getLast (List.cons_ne_nil _ _), ?_, ?_⟩
  · refine delimits_question.of_mem ?_
    rw [encoded]
    exact List.getLast_mem _
  · have bracket : (b == 0x3E) = (c == '>') :=
      delimits_closeBracket.of_mem (by rw [encoded]; exact List.mem_cons_self)
    have size : c.utf8Size = more.length + 1 := by
      rw [← String.length_utf8EncodeChar, encoded, List.length_cons]
    rw [utf8_cons, encoded, List.cons_append, askedEnd?_cons, bracket, Bool.and_comm, onward,
      if_neg (by decide), askedEnd?_append wide, Option.map_map]
    congr 1
    funext n
    simp only [Function.comp_apply]
    omega

/-- The search for the end of an instruction begins with the character before the cursor. -/
theorem exists_instructionEnd?_eq {p : Char} (stands : cursor.At (front ++ [p]) rest) :
    ∃ last, (last == 0x3F) = (p == '?') ∧
      cursor.instructionEnd? =
        (askedEnd? last (utf8 rest)).map (byteLength (front ++ [p]) + ·) := by
  obtain ⟨last, listed, found⟩ := exists_getLast?_utf8 front p
  obtain ⟨before, bytes⟩ := List.getLast?_eq_some_iff.mp found
  refine ⟨last, delimits_question.of_mem listed, ?_⟩
  have size : byteLength (front ++ [p]) = before.length + 1 := by
    rw [← length_utf8, bytes, List.length_append, List.length_singleton]
  have whole : cursor.bytes = before ++ last :: utf8 rest := by
    show utf8 cursor.text.toList = _
    rw [stands.text, utf8_append, bytes, List.append_assoc]
    rfl
  have back : (0 :: cursor.bytes).drop (byteLength (front ++ [p])) = last :: utf8 rest := by
    rw [whole, size, List.drop_succ_cons, List.drop_left]
  rw [instructionEnd?, stands.offset]
  dsimp only
  rw [List.zip, List.drop_zipWith, drop_bytes stands.text, back]
  rfl

end Cursor

end ContentAssist.Text
