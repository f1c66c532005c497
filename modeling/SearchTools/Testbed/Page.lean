/-
# The page as HTML

`generate` writes words, links and paragraphs in one pass and does not escape what it
writes. A page is described here as what it should be: paragraphs that hold no other
paragraph, and links around one word. Every call of `generate` writes such a page, and
for words and hosts without markup of their own a browser reads it back as it is.
-/

import SearchTools.Library.Html
import SearchTools.Testbed.Walk

namespace SearchTools.Testbed

open SearchTools.Library

/-! ## Pages -/

/-- An address does not end the quotes it stands in. -/
abbrev Href := {s : Bytes // 34 ∉ s}

/-- A word and a link are followed by a space. -/
inductive Item
  | newline
  | word (w : Word)
  | link (href : Href) (w : Word)

/-- A paragraph holds no other paragraph. -/
inductive Block
  | inline (item : Item)
  | paragraph (items : List Item)

abbrev Page := List Block

namespace Item

def render : Item → Bytes
  | newline => bytes "\n"
  | word w => w ++ bytes " "
  | link href w => bytes "<a href=\"" ++ href ++ bytes "\">" ++ w ++ bytes "</a> "

/-- What a browser should read. -/
def events : Item → List Html.Event
  | newline => [.char 10]
  | word w => w.map .char ++ [.char 32]
  | link _ w => .startTag (bytes "a") :: (w.map .char ++ [.endTag (bytes "a"), .char 32])

def words : Item → List Word
  | newline => []
  | word w => [w]
  | link _ w => [w]

/-- The text of the item. -/
def text : Item → Bytes
  | newline => [10]
  | word w => w ++ [32]
  | link _ w => w ++ [32]

end Item

namespace Block

def items : Block → List Item
  | inline item => [item]
  | paragraph items => items

def render : Block → Bytes
  | inline item => item.render
  | paragraph items => bytes "<p>" ++ items.flatMap Item.render ++ bytes "</p>"

def events : Block → List Html.Event
  | inline item => item.events
  | paragraph items =>
      .startTag (bytes "p") :: (items.flatMap Item.events ++ [.endTag (bytes "p")])

end Block

namespace Page

def items (page : Page) : List Item := page.flatMap Block.items
def render (page : Page) : Bytes := page.flatMap Block.render
def events (page : Page) : List Html.Event := page.flatMap Block.events
def words (page : Page) : List Word := page.items.flatMap Item.words

end Page

/-- Reading the body of a page gives the tags that were written, and the words. -/
def ReadsAs (decode : Bytes → Bytes) (body : Bytes) (words : List Word) : Prop :=
  ∃ page : Page, page.render = body ∧ Html.read body = page.events ∧ page.words = words ∧
    Strtok.tokens isspace (Html.content decode (Html.read body)) = words

/-! ## Writing -/

/-- A page in the making: finished blocks, and the items of a paragraph that is still
open. -/
structure Draft where
  blocks : Page
  current : Option (List Item)

namespace Draft

def render (d : Draft) : Bytes :=
  d.blocks.render ++ (d.current.map fun items => bytes "<p>" ++ items.flatMap Item.render).getD []

def words (d : Draft) : List Word := d.blocks.words ++ (d.current.getD []).flatMap Item.words

def add (d : Draft) (item : Item) : Draft :=
  match d.current with
  | none => ⟨d.blocks ++ [.inline item], none⟩
  | some items => ⟨d.blocks, some (items ++ [item])⟩

def close (d : Draft) : Draft :=
  match d.current with
  | none => d
  | some items => ⟨d.blocks ++ [.paragraph items, .inline .newline], none⟩

def openParagraph (d : Draft) : Draft := ⟨d.close.blocks, some [.newline]⟩

variable (d : Draft)

theorem render_add (item : Item) : (d.add item).render = d.render ++ item.render := by
  rcases d with ⟨blocks, _ | items⟩
  · simp [add, render, Page.render, Block.render]
  · simp [add, render]

theorem words_add (item : Item) : (d.add item).words = d.words ++ item.words := by
  rcases d with ⟨blocks, _ | items⟩
  · simp [add, words, Page.words, Page.items, Block.items]
  · simp [add, words]

theorem isSome_current_add (item : Item) : (d.add item).current.isSome = d.current.isSome := by
  rcases d with ⟨blocks, _ | items⟩
  · rfl
  · rfl

theorem render_close :
    d.close.render = d.render ++ if d.current.isSome then bytes "</p>\n" else [] := by
  rcases d with ⟨blocks, _ | items⟩
  · simp [close, render]
  · have hend : bytes "</p>" ++ bytes "\n" = bytes "</p>\n" := by decide
    simp [close, render, Page.render, Block.render, Item.render, ← hend]

theorem words_close : d.close.words = d.words := by
  rcases d with ⟨blocks, _ | items⟩
  · rfl
  · simp [close, words, Page.words, Page.items, Block.items, Item.words]

theorem current_close : d.close.current = none := by
  rcases d with ⟨blocks, _ | items⟩
  · rfl
  · rfl

theorem render_close_blocks : d.close.blocks.render = d.close.render := by
  rw [render, current_close, Option.map_none, Option.getD_none, List.append_nil]

theorem words_close_blocks : d.close.blocks.words = d.words := by
  rw [← words_close, words, current_close, Option.getD_none, List.flatMap_nil, List.append_nil]

theorem render_openParagraph :
    d.openParagraph.render =
      d.render ++ (if d.current.isSome then bytes "</p>\n" else []) ++ bytes "<p>\n" := by
  have hstart : bytes "<p>" ++ bytes "\n" = bytes "<p>\n" := by decide
  rw [← render_close, ← hstart, ← render_close_blocks]
  simp [openParagraph, render, Item.render]

theorem words_openParagraph : d.openParagraph.words = d.words := by
  rw [words, openParagraph, words_close_blocks]
  simp [Item.words]

end Draft

/-- The buffer holds the draft behind what was in it before. -/
structure Drafts (buf : Bytes) (g : GenState) (d : Draft) : Prop where
  buf_eq : g.buf = buf ++ d.render
  pOpen_eq : g.pOpen = d.current.isSome
  written_eq : g.written = d.words

theorem drafts_start (seed : UInt32) (buf : Bytes) : Drafts buf (.start seed buf) ⟨[], none⟩ where
  buf_eq := (List.append_nil buf).symm
  pOpen_eq := rfl
  written_eq := rfl

theorem quote_notMem_decimal (n : ℤ) : 34 ∉ decimal n := by
  intro hmem
  rcases mem_decimal hmem with h | h
  · exact absurd h (by decide)
  · exact absurd h (by decide)

section Writing

variable {a : GenArgs} {find : Prefix → Except Fault (Option State)} {w : Word} {g g' : GenState}

/-- The word is written as one item. -/
theorem writeWord_item (hpre : 34 ∉ a.extPrefix) (hsuf : 34 ∉ a.extSuffix)
    {intLink extLink : Bool} (h : writeWord a intLink extLink w g = .ok g') :
    ∃ item : Item, item.words = [w] ∧ g'.buf = g.buf ++ item.render ∧ g'.pOpen = g.pOpen ∧
      g'.written = g.written := by
  unfold writeWord at h
  split at h
  · rcases bind_eq_ok.mp h with ⟨page, -, hreturn⟩
    cases hreturn
    have hhref : 34 ∉ bytes "/" ++ decimal page ++ bytes ".html" := by
      have hpage := quote_notMem_decimal page
      simp only [List.mem_append, hpage]
      decide
    refine ⟨.link ⟨_, hhref⟩ w, rfl, ?_, rfl, rfl⟩
    have hstart : bytes "<a href=\"/" = bytes "<a href=\"" ++ bytes "/" := by decide
    have hend : bytes ".html\">" = bytes ".html" ++ bytes "\">" := by decide
    simp only [Item.render, hstart, hend, List.append_assoc]
  · split at h
    · rcases bind_eq_ok.mp h with ⟨server, -, h⟩
      rcases bind_eq_ok.mp h with ⟨page, -, hreturn⟩
      cases hreturn
      have hhref : 34 ∉ bytes "http://" ++ a.extPrefix ++ decimal server ++ a.extSuffix ++
          bytes "/" ++ decimal page ++ bytes ".html" := by
        have hserver := quote_notMem_decimal server
        have hpage := quote_notMem_decimal page
        simp only [List.mem_append, hpre, hsuf, hserver, hpage]
        decide
      refine ⟨.link ⟨_, hhref⟩ w, rfl, ?_, rfl, rfl⟩
      have hstart : bytes "<a href=\"http://" = bytes "<a href=\"" ++ bytes "http://" := by decide
      have hend : bytes ".html\">" = bytes ".html" ++ bytes "\">" := by decide
      simp only [Item.render, hstart, hend, List.append_assoc]
    · cases h
      exact ⟨.word w, rfl, by simp [Item.render], rfl, rfl⟩

variable {buf : Bytes} {d : Draft}

/-- A word, with the paragraph before it and the newline behind it. -/
theorem Drafts.emitWord (hpre : 34 ∉ a.extPrefix) (hsuf : 34 ∉ a.extSuffix)
    (drafts : Drafts buf g d) (h : emitWord a w g = .ok g') : ∃ d', Drafts buf g' d' := by
  rcases bind_eq_ok.mp h with ⟨sent, hsent, hreturn⟩
  cases hreturn
  rcases writeWord_item hpre hsuf hsent with ⟨item, hwords, hbuf, hopen, hwritten⟩
  have hdraft : ∃ d' : Draft, Drafts buf { sent with written := g.written ++ [w] } d' := by
    split at hbuf
    · next hdraw =>
        rw [if_pos hdraw] at hopen hwritten
        refine ⟨d.openParagraph.add item, ?_, ?_, ?_⟩
        · rw [Draft.render_add, Draft.render_openParagraph, ← drafts.pOpen_eq]
          simp only [hbuf, drafts.buf_eq, List.append_assoc]
        · rw [Draft.isSome_current_add]
          exact hopen
        · rw [Draft.words_add, Draft.words_openParagraph, ← drafts.written_eq, hwords]
    · next hdraw =>
        rw [if_neg hdraw] at hopen hwritten
        refine ⟨d.add item, ?_, ?_, ?_⟩
        · rw [Draft.render_add]
          simp only [hbuf, drafts.buf_eq, List.append_assoc]
        · rw [Draft.isSome_current_add, ← drafts.pOpen_eq]
          exact hopen
        · rw [Draft.words_add, ← drafts.written_eq, hwords]
  rcases hdraft with ⟨d', hd'⟩
  by_cases hline : (myRandR sent.seed).1 < randMax / 3
  · refine ⟨d'.add .newline, ?_, ?_, ?_⟩
    · rw [Draft.render_add, ← List.append_assoc, ← hd'.buf_eq]
      simp only [if_pos hline, Item.render]
    · rw [Draft.isSome_current_add]
      exact hd'.pOpen_eq
    · rw [Draft.words_add, Item.words, List.append_nil]
      exact hd'.written_eq
  · refine ⟨d', ?_, hd'.pOpen_eq, hd'.written_eq⟩
    rw [← hd'.buf_eq]
    simp only [if_neg hline, List.append_nil]

theorem Drafts.generateLoop (hpre : 34 ∉ a.extPrefix) (hsuf : 34 ∉ a.extSuffix) {left : ℕ}
    (drafts : Drafts buf g d) (h : generateLoop a find left g = .ok g') :
    ∃ d', Drafts buf g' d' := by
  induction left generalizing g d with
  | zero =>
      cases h
      exact ⟨d, drafts⟩
  | succ left ih =>
      rcases bind_eq_ok.mp h with ⟨⟨g₁, stop⟩, hbody, hrest⟩
      rcases generateBody_eq_ok hbody with ⟨sp, w, -, -, ⟨rfl, -, rfl⟩ | ⟨rfl, -, hsent⟩⟩
      · cases hrest
        exact ⟨d, drafts.buf_eq, drafts.pOpen_eq, drafts.written_eq⟩
      · have hdrawn : Drafts buf { g with w := some w, seed := (suffixLoop sp.suf g.w g.seed).2 } d :=
          ⟨drafts.buf_eq, drafts.pOpen_eq, drafts.written_eq⟩
        rcases hdrawn.emitWord hpre hsuf hsent with ⟨d', hd'⟩
        exact ih hd' hrest

/-- A call of `generate` writes a page with all of its paragraphs closed. -/
theorem exists_page_of_generate (hpre : 34 ∉ a.extPrefix) (hsuf : 34 ∉ a.extSuffix)
    {seed : UInt32} (h : generate a find seed buf = .ok g) :
    ∃ page : Page, g.buf = buf ++ page.render ∧ page.words = g.written := by
  rcases bind_eq_ok.mp h with ⟨g₁, hloop, hreturn⟩
  cases hreturn
  rcases (drafts_start seed buf).generateLoop hpre hsuf hloop with ⟨d, hd⟩
  refine ⟨d.close.blocks, ?_, ?_⟩
  · rw [Draft.render_close_blocks, Draft.render_close, ← hd.pOpen_eq, ← List.append_assoc,
      ← hd.buf_eq, GenState.close]
    split
    · rfl
    · exact (List.append_nil _).symm
  · rw [Draft.words_close_blocks, GenState.written_close, hd.written_eq]

end Writing

/-! ## Reading -/

/-- A word that a browser takes for itself: no markup begins in it, and it has no
character reference. -/
structure IsText (decode : Bytes → Bytes) (w : Word) : Prop where
  ne_nil : w ≠ []
  no_space : ∀ b ∈ w, isspace b = false
  no_markup : ∀ d, [60, d] <:+: w → Html.opensMarkup d = false
  decoded : decode w = w

variable {decode : Bytes → Bytes} {w : Word}

theorem IsText.readFrom (h : IsText decode w) {c : UInt8} (hc : Html.opensMarkup c = false)
    (rest : Bytes) :
    Html.readFrom .data (w ++ c :: rest) = w.map .char ++ Html.readFrom .data (c :: rest) := by
  apply Html.readFrom_text
  intro d hd
  rcases List.infix_concat_iff.mp hd with hlast | hinner
  · rcases hlast with ⟨before, hbefore⟩
    have heq : (before ++ [60]) ++ [d] = w ++ [c] := by simpa using hbefore
    rw [List.singleton_inj.mp (List.append_inj_right' heq rfl)]
    exact hc
  · exact h.no_markup d hinner

/-- The tags around a link and the text in it. -/
theorem readFrom_link (h : IsText decode w) (href : Href) (rest : Bytes) :
    Html.readFrom .data ((Item.link href w).render ++ rest) =
      (Item.link href w).events ++ Html.readFrom .data rest := by
  have hstart : ∀ s, Html.readFrom .data (bytes "<a href=\"" ++ s) =
      Html.readFrom (.quoted 34 (.startTag (bytes "a"))) s := fun _ => rfl
  have hopen : ∀ s, Html.readFrom (.beforeAttribute (.startTag (bytes "a"))) (62 :: s) =
      .startTag (bytes "a") :: Html.readFrom .data s := fun _ => rfl
  have hend : ∀ s, Html.readFrom .data (60 :: (bytes "/a> " ++ s)) =
      .endTag (bytes "a") :: .char 32 :: Html.readFrom .data s := fun _ => rfl
  have hrender : (Item.link href w).render ++ rest =
      bytes "<a href=\"" ++ (href.1 ++ 34 :: 62 :: (w ++ 60 :: (bytes "/a> " ++ rest))) := by
    have hquote : bytes "\">" = [34, 62] := by decide
    have hclose : bytes "</a> " = 60 :: bytes "/a> " := by decide
    simp [Item.render, hquote, hclose]
  rw [hrender, hstart, Html.readFrom_quoted href.2, hopen, h.readFrom (by decide), hend]
  simp [Item.events]

theorem readFrom_item {item : Item} (h : ∀ w ∈ item.words, IsText decode w) (rest : Bytes) :
    Html.readFrom .data (item.render ++ rest) = item.events ++ Html.readFrom .data rest := by
  cases item with
  | newline => rfl
  | word w =>
      have hspace : Html.readFrom .data (32 :: rest) = .char 32 :: Html.readFrom .data rest := rfl
      have hrender : (Item.word w).render ++ rest = w ++ 32 :: rest := by
        have hblank : bytes " " = [32] := by decide
        simp [Item.render, hblank]
      rw [hrender, (h w List.mem_cons_self).readFrom (by decide), hspace]
      simp [Item.events]
  | link href w => exact readFrom_link (h w List.mem_cons_self) href rest

theorem readFrom_block {block : Block} (h : ∀ item ∈ block.items, ∀ w ∈ item.words, IsText decode w)
    (rest : Bytes) :
    Html.readFrom .data (block.render ++ rest) = block.events ++ Html.readFrom .data rest := by
  cases block with
  | inline item => exact readFrom_item (h item List.mem_cons_self) rest
  | paragraph items =>
      have hstart : ∀ s, Html.readFrom .data (bytes "<p>" ++ s) =
          .startTag (bytes "p") :: Html.readFrom .data s := fun _ => rfl
      have hend : ∀ s, Html.readFrom .data (bytes "</p>" ++ s) =
          .endTag (bytes "p") :: Html.readFrom .data s := fun _ => rfl
      have hitems := flatMap_append_eq fun item hitem => readFrom_item (h item hitem)
      rw [Block.items] at hitems
      simp only [Block.render, Block.events, List.append_assoc, hstart, hitems, hend,
        List.cons_append, List.nil_append]

/-- The page is read block by block. -/
theorem read_page {page : Page} (h : ∀ item ∈ page.items, ∀ w ∈ item.words, IsText decode w) :
    Html.read page.render = page.events := by
  have hpage := flatMap_append_eq
    (fun block hblock => readFrom_block fun item hitem =>
      h item (List.mem_flatMap.mpr ⟨block, hblock, hitem⟩)) []
  rwa [List.append_nil, show Html.readFrom .data [] = [] from rfl, List.append_nil] at hpage

/-! ## The text of a page -/

theorem content_item (hdecode : Html.Decodes decode) {item : Item}
    (h : ∀ w ∈ item.words, IsText decode w) (es : List Html.Event) :
    Html.content decode (item.events ++ es) = item.text ++ Html.content decode es := by
  have hspace : ∀ (s : Bytes) (c : UInt8) (es : List Html.Event), isspace c →
      Html.content decode (s.map .char ++ .char c :: es) = decode s ++ c :: Html.content decode es :=
    fun s c es hc => Html.content_space hdecode s hc es
  cases item with
  | newline =>
      have hline := hspace [] 10 es rfl
      rwa [hdecode.nil] at hline
  | word w =>
      have hword := hspace w 32 es rfl
      rw [(h w List.mem_cons_self).decoded] at hword
      simpa [Item.events, Item.text] using hword
  | link href w =>
      have hstart := @Html.content_tag decode [] (.startTag (bytes "a")) rfl
        (w.map .char ++ .endTag (bytes "a") :: .char 32 :: es)
      have hend := @Html.content_tag decode w (.endTag (bytes "a")) rfl (.char 32 :: es)
      have hblank := hspace [] 32 es rfl
      simp only [List.map_nil, List.nil_append, hdecode.nil] at hstart hblank
      rw [(h w List.mem_cons_self).decoded] at hend
      simp only [Item.events, Item.text, List.append_assoc, List.cons_append, List.nil_append,
        hstart, hend, hblank]

theorem content_block (hdecode : Html.Decodes decode) {block : Block}
    (h : ∀ item ∈ block.items, ∀ w ∈ item.words, IsText decode w) (es : List Html.Event) :
    Html.content decode (block.events ++ es) =
      block.items.flatMap Item.text ++ Html.content decode es := by
  have hitems := flatMap_append_eq fun item hitem => content_item hdecode (h item hitem)
  cases block with
  | inline item =>
      have hitem := hitems es
      simpa [Block.events, Block.items] using hitem
  | paragraph items =>
      have hstart := @Html.content_tag decode [] (.startTag (bytes "p")) rfl
        (items.flatMap Item.events ++ .endTag (bytes "p") :: es)
      have hend := @Html.content_tag decode [] (.endTag (bytes "p")) rfl es
      simp only [List.map_nil, List.nil_append, hdecode.nil] at hstart hend
      rw [Block.items] at hitems
      simp only [Block.events, Block.items, List.append_assoc, List.cons_append, List.nil_append,
        hstart, hitems, hend]

theorem content_page (hdecode : Html.Decodes decode) {page : Page}
    (h : ∀ item ∈ page.items, ∀ w ∈ item.words, IsText decode w) :
    Html.content decode page.events = page.items.flatMap Item.text := by
  have hpage := flatMap_append_eq
    (fun block hblock => content_block hdecode fun item hitem =>
      h item (List.mem_flatMap.mpr ⟨block, hblock, hitem⟩)) []
  rw [List.append_nil, Html.content_nil hdecode, List.append_nil] at hpage
  rw [Page.items, List.flatMap_assoc]
  exact hpage

/-- Split at white space the text gives the words. -/
theorem tokens_items {items : List Item} (h : ∀ item ∈ items, ∀ w ∈ item.words, IsText decode w) :
    Strtok.tokens isspace (items.flatMap Item.text) = items.flatMap Item.words := by
  have hitem : ∀ item ∈ items, ∀ s,
      Strtok.tokens isspace (item.text ++ s) = item.words ++ Strtok.tokens isspace s := by
    intro item hmem s
    have hword : ∀ w ∈ item.words,
        Strtok.tokens isspace (w ++ 32 :: s) = w :: Strtok.tokens isspace s := by
      intro w hw
      have hw' := h item hmem w hw
      exact Strtok.tokens_token hw'.no_space hw'.ne_nil rfl s
    cases item with
    | newline => exact Strtok.tokens_skipped (by simp [Item.text, isspace])
    | word w => simpa [Item.text, Item.words] using hword w List.mem_cons_self
    | link href w => simpa [Item.text, Item.words] using hword w List.mem_cons_self
  have hitems := flatMap_append_eq hitem []
  rwa [List.append_nil, show Strtok.tokens isspace [] = [] from rfl, List.append_nil] at hitems

/-! ## Pages as browsers read them -/

/-- Decode the reference `&lt;`. -/
def decodeLt : Bytes → Bytes
  | 38 :: 108 :: 116 :: 59 :: s => 60 :: decodeLt s
  | b :: s => b :: decodeLt s
  | [] => []

theorem decodes_decodeLt : Html.Decodes decodeLt where
  nil := rfl
  space := by
    intro s c t hc
    have hne : c ≠ 38 ∧ c ≠ 108 ∧ c ≠ 116 ∧ c ≠ 59 := by
      refine ⟨?_, ?_, ?_, ?_⟩ <;>
      · rintro rfl
        exact absurd hc (by decide)
    induction s using decodeLt.induct with
    | case1 s ih => simp [decodeLt, ih]
    | case2 b s hb ih =>
        have hb' : ∀ tail, b = 38 → s ++ c :: t = 108 :: 116 :: 59 :: tail → False := by
          intro tail hamp htail
          rcases s with _ | ⟨x, _ | ⟨y, _ | ⟨z, s⟩⟩⟩
          · simp [hne] at htail
          · simp [hne] at htail
          · simp [hne] at htail
          · simp only [List.cons_append, List.cons.injEq] at htail
            rcases htail with ⟨rfl, rfl, rfl, -⟩
            exact hb s hamp rfl
        rw [List.cons_append, decodeLt.eq_2 _ _ hb', decodeLt.eq_2 _ _ hb, ih]
        rfl
    | case3 =>
        have hc' : ∀ tail, c = 38 → t = 108 :: 116 :: 59 :: tail → False := fun _ h => absurd h hne.1
        rw [List.nil_append, decodeLt.eq_2 _ _ hc']
        rfl

/-- A page is written, and its text is not the words. -/
def misread (words : List Word) (a : GenArgs) : Bool :=
  match generate a (plainLookup (initFile .empty words)) 1 [] with
  | .ok g => Strtok.tokens isspace (Html.content decodeLt (Html.read g.buf)) ≠ g.written
  | .error _ => false

theorem exists_of_misread {words : List Word} {a : GenArgs} (h : misread words a) :
    ∃ g, generate a (plainLookup (initFile .empty words)) 1 [] = .ok g ∧
      ¬ ReadsAs decodeLt g.buf g.written := by
  unfold misread at h
  split at h
  · next g hg =>
      refine ⟨g, hg, ?_⟩
      rintro ⟨page, -, -, -, htokens⟩
      exact of_decide_eq_true h htokens
  · cases h

/-- Let no word of the text have markup or character references of its own, and let
prefix and suffix of the external hosts have no quotes. Then `generate` returns if no
divisor is zero, and in any case a body that it has written is read as it was meant. -/
theorem generate_readsAs (hdecode : Html.Decodes decode) (words : List Word)
    (hwords : ∀ w ∈ words, IsText decode w) (a : GenArgs) (hpre : 34 ∉ a.extPrefix)
    (hsuf : 34 ∉ a.extSuffix) (find : Prefix → Except Fault (Option State))
    (build : IsBuild (initFile .empty words) find) (seed : UInt32) (buf : Bytes) :
    (a.linksTotal ≠ 0 → a.extServers ≠ 0 → ∃ g, generate a find seed buf = .ok g) ∧
    ∀ g, generate a find seed buf = .ok g →
      ∃ body, g.buf = buf ++ body ∧ ReadsAs decode body g.written := by
  have hstart := onText_start words seed buf
  constructor
  · intro hlinks hservers
    rcases hstart.loop hlinks hservers build.answers a.nwords.toNat with ⟨g, hloop, -⟩
    exact ⟨g.close, bind_eq_ok.mpr ⟨g, hloop, rfl⟩⟩
  · intro g h
    rcases exists_page_of_generate hpre hsuf h with ⟨page, hbuf, hwritten⟩
    have htext : ∀ item ∈ page.items, ∀ w ∈ item.words, IsText decode w := by
      rcases bind_eq_ok.mp h with ⟨g₁, hloop, hreturn⟩
      cases hreturn
      intro item hitem w hw
      have hmem : w ∈ page.words := List.mem_flatMap.mpr ⟨item, hitem, hw⟩
      rw [hwritten, GenState.written_close] at hmem
      exact hwords w (hstart.mem_of_generateLoop build.answers hloop w hmem)
    have hread : Html.read page.render = page.events := read_page htext
    refine ⟨page.render, hbuf, page, rfl, hread, hwritten, ?_⟩
    rw [hread, content_page hdecode htext, ← hwritten]
    exact tokens_items htext

/-- An `&` that is no character reference does no harm. -/
theorem generate_readsAs_sample :
    ∃ g, generate (sampleArgs 3) (plainLookup (initFile .empty [bytes "R&D"])) 1 [] = .ok g ∧
      ReadsAs decodeLt g.buf g.written := by
  have hword : IsText decodeLt (bytes "R&D") := by
    refine ⟨by decide, by decide +kernel, ?_, by decide⟩
    intro d hd
    exact absurd (hd.subset List.mem_cons_self) (by decide)
  have hwords : ∀ w ∈ [bytes "R&D"], IsText decodeLt w := List.forall_mem_singleton.mpr hword
  rcases generate_readsAs decodes_decodeLt [bytes "R&D"] hwords (sampleArgs 3) (by decide) (by decide)
    _ .plain 1 [] with ⟨hreturns, hreads⟩
  rcases hreturns (by decide) (by decide) with ⟨g, hg⟩
  rcases hreads g hg with ⟨body, hbody, hreadsAs⟩
  rw [List.nil_append] at hbody
  exact ⟨g, hg, hbody ▸ hreadsAs⟩

/-- A tag, a character reference, and a host that ends its quotes. -/
theorem not_readsAs_markup :
    (∃ g, generate (sampleArgs 1) (plainLookup (initFile .empty [bytes "<b>"])) 1 [] = .ok g ∧
      ¬ ReadsAs decodeLt g.buf g.written) ∧
    (∃ g, generate (sampleArgs 1) (plainLookup (initFile .empty [bytes "&lt;"])) 1 [] = .ok g ∧
      ¬ ReadsAs decodeLt g.buf g.written) ∧
    ∃ g, generate
        { sampleArgs 1 with internLinks := 0, externLinks := randMax, extPrefix := bytes "\">x" }
        (plainLookup (initFile .empty [bytes "a"])) 1 [] = .ok g ∧
      ¬ ReadsAs decodeLt g.buf g.written := by
  refine ⟨exists_of_misread ?_, exists_of_misread ?_, exists_of_misread ?_⟩
  · decide +kernel
  · decide +kernel
  · decide +kernel

end SearchTools.Testbed
