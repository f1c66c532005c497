/-
# Reading HTML

The tags and the text of a piece of HTML, read byte by byte as a browser does.
Attributes are passed over, and comments and declarations give nothing. Elements
whose content is not read as markup, such as scripts, are not singled out. What the
character references in a text stand for is a parameter.
-/

import SearchTools.Library.CString
import SearchTools.Library.Pieces

namespace SearchTools.Library.Html

/-- What is read: a byte of the text or a tag with its name in lower case. -/
inductive Event
  | char (b : UInt8)
  | startTag (name : Bytes)
  | endTag (name : Bytes)
  deriving DecidableEq, Repr

/-! ## The tokenizer -/

inductive State
  | data
  | tagOpen
  | endTagOpen
  | tagName (closing : Bool) (name : Bytes)
  | beforeAttribute (tag : Event)
  | attributeName (tag : Event)
  | afterAttributeName (tag : Event)
  | beforeValue (tag : Event)
  | quoted (quote : UInt8) (tag : Event)
  | unquoted (tag : Event)
  | declaration (seen : Bytes)
  | comment (seen : Bytes)
  | bogusComment
  deriving DecidableEq, Repr

def isBlank (b : UInt8) : Bool := b == 32 || b == 9 || b == 10 || b == 12 || b == 13

def toLower (b : UInt8) : UInt8 := if 65 ≤ b && b ≤ 90 then b + 32 else b

/-- A `<` before the byte begins a tag, a comment or a declaration. -/
def opensMarkup (b : UInt8) : Bool := isalpha b || b == 47 || b == 33 || b == 63

def dataStep (c : UInt8) : List Event × State :=
  if c = 60 then ([], .tagOpen) else ([.char c], .data)

def tagOpenStep (c : UInt8) : List Event × State :=
  if isalpha c then ([], .tagName false [toLower c])
  else if c = 47 then ([], .endTagOpen)
  else if c = 33 then ([], .declaration [])
  else if c = 63 then ([], .bogusComment)
  else (.char 60 :: (dataStep c).1, (dataStep c).2)

def endTagOpenStep (c : UInt8) : List Event × State :=
  if isalpha c then ([], .tagName true [toLower c])
  else if c = 62 then ([], .data)
  else ([], .bogusComment)

def tagNameStep (closing : Bool) (name : Bytes) (c : UInt8) : List Event × State :=
  let tag := if closing then .endTag name else .startTag name
  if isBlank c || c = 47 then ([], .beforeAttribute tag)
  else if c = 62 then ([tag], .data)
  else ([], .tagName closing (name ++ [toLower c]))

/-- Also behind a value in quotes and behind a `/`. -/
def beforeAttributeStep (tag : Event) (c : UInt8) : List Event × State :=
  if isBlank c || c = 47 then ([], .beforeAttribute tag)
  else if c = 62 then ([tag], .data)
  else ([], .attributeName tag)

def afterAttributeNameStep (tag : Event) (c : UInt8) : List Event × State :=
  if isBlank c then ([], .afterAttributeName tag)
  else if c = 47 then ([], .beforeAttribute tag)
  else if c = 61 then ([], .beforeValue tag)
  else if c = 62 then ([tag], .data)
  else ([], .attributeName tag)

def attributeNameStep (tag : Event) (c : UInt8) : List Event × State :=
  if c = 61 then ([], .beforeValue tag)
  else if isBlank c || c = 47 || c = 62 then afterAttributeNameStep tag c
  else ([], .attributeName tag)

def beforeValueStep (tag : Event) (c : UInt8) : List Event × State :=
  if isBlank c then ([], .beforeValue tag)
  else if c = 34 || c = 39 then ([], .quoted c tag)
  else if c = 62 then ([tag], .data)
  else ([], .unquoted tag)

def unquotedStep (tag : Event) (c : UInt8) : List Event × State :=
  if isBlank c then ([], .beforeAttribute tag)
  else if c = 62 then ([tag], .data)
  else ([], .unquoted tag)

/-- Behind `<!`: two dashes begin a comment. -/
def declarationStep (seen : Bytes) (c : UInt8) : List Event × State :=
  if c = 62 then ([], .data)
  else if c = 45 && seen = [] then ([], .declaration [45])
  else if c = 45 && seen = [45] then ([], .comment [])
  else ([], .bogusComment)

/-- A `>` ends a comment behind two dashes, or at its very beginning. -/
def commentStep (seen : Bytes) (c : UInt8) : List Event × State :=
  if c = 62 && (seen = [] || seen = [45] || [45, 45].isSuffixOf seen ||
      [45, 45, 33].isSuffixOf seen) then ([], .data)
  else ([], .comment (seen ++ [c]))

def step : State → UInt8 → List Event × State
  | .data, c => dataStep c
  | .tagOpen, c => tagOpenStep c
  | .endTagOpen, c => endTagOpenStep c
  | .tagName closing name, c => tagNameStep closing name c
  | .beforeAttribute tag, c => beforeAttributeStep tag c
  | .attributeName tag, c => attributeNameStep tag c
  | .afterAttributeName tag, c => afterAttributeNameStep tag c
  | .beforeValue tag, c => beforeValueStep tag c
  | .quoted quote tag, c => ([], if c = quote then .beforeAttribute tag else .quoted quote tag)
  | .unquoted tag, c => unquotedStep tag c
  | .declaration seen, c => declarationStep seen c
  | .comment seen, c => commentStep seen c
  | .bogusComment, c => ([], if c = 62 then .data else .bogusComment)

/-- An unfinished tag at the end gives nothing, but its first bytes may be text. -/
def atEnd : State → List Event
  | .tagOpen => [.char 60]
  | .endTagOpen => [.char 60, .char 47]
  | _ => []

def readFrom : State → Bytes → List Event
  | st, [] => atEnd st
  | st, c :: s => (step st c).1 ++ readFrom (step st c).2 s

/-- The tags and the text of a piece of HTML. -/
def read (s : Bytes) : List Event := readFrom .data s

example : read (bytes "<P>1 < 2<br/><!-- <a> --></p >") =
    [.startTag (bytes "p"), .char 49, .char 32, .char 60, .char 32, .char 50,
      .startTag (bytes "br"), .endTag (bytes "p")] := by decide

/-! ## Text and quoted values -/

theorem readFrom_char {c : UInt8} (hc : c ≠ 60) (s : Bytes) :
    readFrom .data (c :: s) = .char c :: readFrom .data s := by
  simp [readFrom, step, dataStep, hc]

/-- A `<` that begins nothing is text. -/
theorem readFrom_lt {c : UInt8} (hc : opensMarkup c = false) (s : Bytes) :
    readFrom .data (60 :: c :: s) = .char 60 :: readFrom .data (c :: s) := by
  simp only [opensMarkup, Bool.or_eq_false_iff, beq_eq_false_iff_ne] at hc
  simp [readFrom, step, dataStep, tagOpenStep, hc]

/-- A text without markup, up to a byte behind it. -/
theorem readFrom_text {s : Bytes} {c : UInt8} {rest : Bytes}
    (htext : ∀ d, [60, d] <:+: s ++ [c] → opensMarkup d = false) :
    readFrom .data (s ++ c :: rest) = s.map .char ++ readFrom .data (c :: rest) := by
  induction s with
  | nil => rfl
  | cons b s ih =>
      have hrest := ih fun d hd => htext d (hd.trans (List.suffix_cons b _).isInfix)
      rw [List.cons_append, List.map_cons, List.cons_append, ← hrest]
      by_cases hb : b = 60
      · subst hb
        rcases List.exists_cons_of_ne_nil
          (List.append_ne_nil_of_right_ne_nil s (List.cons_ne_nil c rest)) with ⟨d, tail, htail⟩
        have hd : opensMarkup d = false := by
          apply htext
          cases s with
          | nil =>
              rw [List.nil_append, List.cons.injEq] at htail
              rw [← htail.1]
              exact List.infix_rfl
          | cons e s =>
              rw [List.cons_append, List.cons.injEq] at htail
              rw [← htail.1]
              exact ⟨[], s ++ [c], by simp⟩
        rw [htail, readFrom_lt hd]
      · rw [readFrom_char hb]

theorem readFrom_quoted {quote : UInt8} {s : Bytes} (hs : quote ∉ s) (tag : Event) (rest : Bytes) :
    readFrom (.quoted quote tag) (s ++ quote :: rest) = readFrom (.beforeAttribute tag) rest := by
  induction s with
  | nil => simp [readFrom, step]
  | cons b s ih =>
      have hb : b ≠ quote := fun h => hs (h ▸ List.mem_cons_self)
      have hrest := ih fun h => hs (List.mem_cons_of_mem _ h)
      simp [readFrom, step, hb, hrest]

/-! ## The text content -/

def Event.isTag : Event → Bool
  | .char _ => false
  | _ => true

def Event.byte? : Event → Option UInt8
  | .char b => some b
  | _ => none

/-- The text between the tags, each stretch of it with its character references
decoded. -/
def content (decode : Bytes → Bytes) (es : List Event) : Bytes :=
  (es.splitOnP Event.isTag).flatMap fun run => decode (run.filterMap Event.byte?)

/-- A character reference has no white space in it. -/
structure Decodes (decode : Bytes → Bytes) : Prop where
  nil : decode [] = []
  space : ∀ s c t, isspace c → decode (s ++ c :: t) = decode s ++ c :: decode t

theorem filterMap_byte?_map (s : Bytes) : (s.map Event.char).filterMap Event.byte? = s := by
  rw [List.filterMap_map]
  exact List.filterMap_some

theorem not_isTag_of_mem_map {s : Bytes} {e : Event} (he : e ∈ s.map Event.char) :
    e.isTag = false := by
  rcases List.mem_map.mp he with ⟨b, -, rfl⟩
  rfl

variable {decode : Bytes → Bytes}

theorem content_nil (hdecode : Decodes decode) : content decode [] = [] := by
  rw [content, List.splitOnP_nil, List.flatMap_singleton]
  exact hdecode.nil

/-- A text ends at a tag. -/
theorem content_tag (s : Bytes) {t : Event} (ht : t.isTag) (es : List Event) :
    content decode (s.map .char ++ t :: es) = decode s ++ content decode es := by
  rw [content, List.splitOnP_append_cons_of_forall_mem (fun e he => not_isTag_of_mem_map he) t ht,
    List.flatMap_cons, filterMap_byte?_map]
  rfl

theorem splitOnP_append_of_forall_not {us : List Event} (hus : ∀ e ∈ us, e.isTag = false)
    (es : List Event) :
    (us ++ es).splitOnP Event.isTag = (es.splitOnP Event.isTag).modifyHead (us ++ ·) := by
  induction us with
  | nil =>
      rw [List.nil_append]
      cases es.splitOnP Event.isTag with
      | nil => rfl
      | cons run runs => rfl
  | cons u us ih =>
      have hu := hus u List.mem_cons_self
      have hrest := ih fun e he => hus e (List.mem_cons_of_mem _ he)
      rw [List.cons_append, List.splitOnP_cons_eq_if_modifyHead, hu, hrest, List.modifyHead_modifyHead]
      rfl

/-- White space divides a text. -/
theorem content_space (hdecode : Decodes decode) (s : Bytes) {c : UInt8} (hc : isspace c)
    (es : List Event) :
    content decode (s.map .char ++ .char c :: es) = decode s ++ c :: content decode es := by
  have hevents : s.map Event.char ++ .char c :: es = (s ++ [c]).map Event.char ++ es := by simp
  rcases List.exists_cons_of_ne_nil (List.splitOnP_ne_nil Event.isTag es) with ⟨run, runs, hruns⟩
  rw [hevents, content, splitOnP_append_of_forall_not (fun e he => not_isTag_of_mem_map he), content,
    hruns, List.modifyHead_cons, List.flatMap_cons, List.flatMap_cons, List.filterMap_append,
    filterMap_byte?_map, List.append_assoc, List.singleton_append, hdecode.space s c _ hc,
    List.append_assoc, List.cons_append]

end SearchTools.Library.Html
