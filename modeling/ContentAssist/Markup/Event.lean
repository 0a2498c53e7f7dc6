/-
# ContentAssist.Markup.Event -- what half-typed markup says so far

The last event may still be in the making, so a start tag may lack its closing bracket and
an attribute may lack its value.  Where inside it the typing stopped is its `Caret`.

Attributes stay in the order they were first typed; typing a name again replaces the value
in place (`keys_insert`).
-/
import ContentAssist.Text.Blank

namespace ContentAssist.Markup

set_option autoImplicit false

/-! ## Attributes -/

/-- What has been typed after an attribute's name. -/
inductive AttributeValue where
  /-- The equals sign, and no quote yet. -/
  | pending
  /-- A quote and this text, closed or not. -/
  | value (text : String)
  deriving DecidableEq, Repr, Inhabited

def AttributeValue.text? : AttributeValue → Option String
  | .pending => none
  | .value text => some text

/-- The attributes of one tag, in the order in which their names were first typed. -/
structure Attributes where
  entries : List (String × AttributeValue) := []
  deriving DecidableEq, Repr, Inhabited

namespace Attributes

/-- Replace the value at a name that is there; put a new name last. -/
def upsert (name : String) (value : AttributeValue) :
    List (String × AttributeValue) → List (String × AttributeValue)
  | [] => [(name, value)]
  | (key, old) :: rest =>
      if key = name then (key, value) :: rest else (key, old) :: upsert name value rest

def insert (attributes : Attributes) (name : String) (value : AttributeValue) : Attributes :=
  ⟨upsert name value attributes.entries⟩

def get? (attributes : Attributes) (name : String) : Option AttributeValue :=
  attributes.entries.lookup name

def contains (attributes : Attributes) (name : String) : Bool :=
  (attributes.get? name).isSome

def text? (attributes : Attributes) (name : String) : Option String :=
  (attributes.get? name).bind AttributeValue.text?

def keys (attributes : Attributes) : List String :=
  attributes.entries.map Prod.fst

def size (attributes : Attributes) : Nat :=
  attributes.entries.length

def isEmpty (attributes : Attributes) : Bool :=
  attributes.entries.isEmpty

def ofList (pairs : List (String × AttributeValue)) : Attributes :=
  pairs.foldl (fun attributes (name, value) => attributes.insert name value) {}

theorem lookup_upsert_self (name : String) (value : AttributeValue)
    (entries : List (String × AttributeValue)) :
    (upsert name value entries).lookup name = some value := by
  induction entries with
  | nil => simp [upsert]
  | cons entry rest ih =>
      obtain ⟨key, old⟩ := entry
      by_cases same : key = name
      · simp [upsert, same]
      · have other : (name == key) = false := by simpa using fun h => same h.symm
        simp [upsert, same, List.lookup_cons, other, ih]

theorem lookup_upsert_of_ne {name other : String} (value : AttributeValue)
    (entries : List (String × AttributeValue)) (ne : other ≠ name) :
    (upsert name value entries).lookup other = entries.lookup other := by
  induction entries with
  | nil => simp [upsert, List.lookup_cons, beq_eq_false_iff_ne.mpr ne]
  | cons entry rest ih =>
      obtain ⟨key, old⟩ := entry
      by_cases same : key = name
      · subst same
        simp [upsert, List.lookup_cons, beq_eq_false_iff_ne.mpr ne]
      · simp [upsert, same, List.lookup_cons, ih]

theorem map_fst_upsert (name : String) (value : AttributeValue)
    (entries : List (String × AttributeValue)) :
    (upsert name value entries).map Prod.fst =
      if name ∈ entries.map Prod.fst then entries.map Prod.fst
      else entries.map Prod.fst ++ [name] := by
  induction entries with
  | nil => simp [upsert]
  | cons entry rest ih =>
      obtain ⟨key, old⟩ := entry
      by_cases same : key = name
      · simp [upsert, same]
      · have differ : name ≠ key := fun h => same h.symm
        simp only [upsert, same, if_false, List.map_cons, ih, List.mem_cons, differ, false_or]
        split <;> simp

@[simp] theorem get?_insert_self (attributes : Attributes) (name : String)
    (value : AttributeValue) : (attributes.insert name value).get? name = some value :=
  lookup_upsert_self name value attributes.entries

theorem get?_insert_of_ne (attributes : Attributes) {name other : String}
    (value : AttributeValue) (ne : other ≠ name) :
    (attributes.insert name value).get? other = attributes.get? other :=
  lookup_upsert_of_ne value attributes.entries ne

/-- Recording adds a new name at the end and moves no name. -/
theorem keys_insert (attributes : Attributes) (name : String) (value : AttributeValue) :
    (attributes.insert name value).keys =
      if name ∈ attributes.keys then attributes.keys else attributes.keys ++ [name] :=
  map_fst_upsert name value attributes.entries

theorem nodup_keys_insert {attributes : Attributes} (distinct : attributes.keys.Nodup)
    (name : String) (value : AttributeValue) : (attributes.insert name value).keys.Nodup := by
  rw [keys_insert]
  split
  · exact distinct
  · rename_i absent
    refine List.nodup_append.mpr ⟨distinct, by simp, ?_⟩
    intro key listed other new same
    rw [same, List.mem_singleton.mp new] at listed
    exact absent listed

theorem mem_entries_insert {attributes : Attributes} {name : String} {value : AttributeValue}
    {entry : String × AttributeValue} (listed : entry ∈ (attributes.insert name value).entries) :
    entry = (name, value) ∨ entry ∈ attributes.entries := by
  obtain ⟨entries⟩ := attributes
  have upserted : entry ∈ upsert name value entries := listed
  induction entries with
  | nil => exact .inl (List.mem_singleton.mp upserted)
  | cons first rest ih =>
      obtain ⟨key, old⟩ := first
      by_cases same : key = name
      · rw [upsert, if_pos same] at upserted
        rcases List.mem_cons.mp upserted with rfl | later
        · exact .inl (by rw [same])
        · exact .inr (List.mem_cons_of_mem _ later)
      · rw [upsert, if_neg same] at upserted
        rcases List.mem_cons.mp upserted with rfl | later
        · exact .inr List.mem_cons_self
        · exact (ih later later).imp_right (List.mem_cons_of_mem _)

end Attributes

/-! ## Tags and events -/

/-- A start tag as typed so far. -/
structure StartTag where
  /-- The name, which may be empty or unfinished. -/
  name : String
  attributes : Attributes := {}
  /-- The attribute whose name or value the typing stopped in. -/
  current : Option String := none
  /-- The tag was closed by a slash and a bracket. -/
  selfClosing : Bool := false
  deriving DecidableEq, Repr, Inhabited

namespace StartTag

def currentValue? (tag : StartTag) : Option String :=
  tag.current.bind tag.attributes.text?

/-- The value at a name, unless it is the one still being typed. -/
def completedValue? (tag : StartTag) (name : String) : Option String :=
  if tag.current = some name then none else tag.attributes.text? name

end StartTag

/-- One piece of markup, complete or in the making. -/
inductive Event where
  /-- A processing instruction; its content is not looked at. -/
  | instruction
  | startTag (tag : StartTag)
  | endTag (name : String)
  /-- Everything up to the next opening bracket, verbatim. -/
  | text (content : String)
  deriving DecidableEq, Repr, Inhabited

def Event.isInsignificant : Event → Bool
  | .instruction => true
  | .text content => Text.isAllBlank content
  | _ => false

/-! ## Where the typing stopped -/

inductive Quote where
  | single
  | double
  deriving DecidableEq, Repr, Inhabited

def Quote.char : Quote → Char
  | .single => '\''
  | .double => '"'

def Quote.ofChar? (c : Char) : Option Quote :=
  if c = '"' then some .double else if c = '\'' then some .single else none

/-- The place inside the last event where the typing stopped. -/
inductive Caret where
  | atStart
  | inInstruction
  | inStartName
  /-- Inside a start tag, between attributes; `spaced` when right after white space,
  where an attribute may begin. -/
  | awaitingAttribute (spaced : Bool)
  /-- In the name of an end tag or past it. -/
  | inEndTag
  | inAttributeName
  /-- After an attribute's equals sign, before its quote. -/
  | afterEquals
  | inAttributeValue (quote : Quote)
  /-- In text, or right after closed markup. -/
  | inText
  deriving DecidableEq, Repr, Inhabited

def Caret.openQuote? : Caret → Option Quote
  | .inAttributeValue quote => some quote
  | _ => none

end ContentAssist.Markup
