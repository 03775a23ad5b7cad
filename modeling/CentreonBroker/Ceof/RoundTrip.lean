import CentreonBroker.Ceof.Parser

/-!
# The round trip of object files

Objects that are written are to be read back with their types and their values. The file of an
object that is not finished is to be rejected.
-/

namespace CentreonBroker.Ceof

/-- A word that has no white space. -/
def Word (s : List Char) : Prop := s ≠ [] ∧ ∀ c ∈ s, c ≠ ' ' ∧ c ≠ '\t' ∧ c ≠ '\n'

instance : DecidablePred Word := fun s => @instDecidableAnd _ _ _ (List.decidableBAll _ s)

/-- A text of one line, with no blanks around it. -/
def Text (s : List Char) : Prop :=
  '\n' ∉ s ∧ (∀ c ∈ s.head?, c ≠ ' ' ∧ c ≠ '\t') ∧ ∀ c ∈ s.getLast?, c ≠ ' ' ∧ c ≠ '\t'

/-- An object with a type and, under different keys, its values. -/
structure Object where
  type : List Char
  attributes : List (List Char × List Char)
  type_word : Word type
  keys_word : ∀ a ∈ attributes, Word a.1 ∧ a.1 ≠ ['}']
  values_text : ∀ a ∈ attributes, Text a.2
  keys_nodup : (attributes.map Prod.fst).Nodup

def Values.insert (values : Values) (a : List Char × List Char) : Values :=
  Function.update values a.1 (some a.2)

/-- The map of an object. -/
def valuesOf (attributes : List (List Char × List Char)) : Values :=
  attributes.foldl Values.insert fun _ => none

/-- An attribute as `ceof_serializer` writes it. -/
def Writer.addAttribute (w : Writer) (a : List Char × List Char) : Writer :=
  (w.addKey a.1).addValue a.2

/-- An object that is not closed. -/
def Writer.openWith (w : Writer) (o : Object) : Writer :=
  o.attributes.foldl Writer.addAttribute (w.openObject o.type)

def Writer.add (w : Writer) (o : Object) : Writer := (w.openWith o).closeObject

def write (objs : List Object) : List Char := objs.foldl Writer.add []

/-- A key that can be written. -/
abbrev Key := {k : List Char // Word k ∧ k ≠ ['}']}

/-- The text of objects, of which the last is not closed, and may have a key without a value. -/
def unfinished (objs : List Object) (o : Object) : Option Key → List Char
  | none => Writer.openWith (write objs) o
  | some key => (Writer.openWith (write objs) o).addKey key.1

/-- The objects are read back. -/
def RoundTrips (objs : List Object) : Prop :=
  ∃ tokens, parse (write objs) = .ok tokens ∧
    objects tokens = objs.map fun o => (o.type, valuesOf o.attributes)

def Rejected (text : List Char) : Prop := ∃ e, parse text = .error e

/-- No comment begins where the text is. -/
def NoComment (s : List Char) : Prop := s.head? ≠ some '#'

instance : DecidablePred NoComment := fun _ => inferInstanceAs (Decidable (_ ≠ _))

/-- What the format has no other reading for. -/
structure Object.Harmless (o : Object) : Prop where
  type : NoComment o.type
  keys : ∀ a ∈ o.attributes, NoComment a.1
  values : ∀ a ∈ o.attributes, NoComment a.2 ∧ a.2 ≠ ['}']

/-! ## What is written -/

def openText (type : List Char) : List Char := define ++ ' ' :: type ++ [' ', '{', '\n']

def attributeText (a : List Char × List Char) : List Char := a.1 ++ ' ' :: (a.2 ++ ['\n'])

def Object.text (o : Object) : List Char :=
  openText o.type ++ o.attributes.flatMap attributeText ++ ['}', '\n']

theorem addAttribute_eq (w : Writer) (a : List Char × List Char) :
    w.addAttribute a = w ++ attributeText a := by
  simp [Writer.addAttribute, Writer.addKey, Writer.addValue, attributeText]

/-- To append piece by piece is to append it all. -/
theorem foldl_append {α : Type} {f : Writer → α → Writer} {text : α → List Char}
    (h : ∀ w a, f w a = w ++ text a) (l : List α) (w : Writer) :
    l.foldl f w = w ++ l.flatMap text := by
  induction l generalizing w with
  | nil => exact (List.append_nil w).symm
  | cons a l ih => rw [List.foldl_cons, ih, h, List.flatMap_cons, List.append_assoc]

theorem openWith_eq (w : Writer) (o : Object) :
    w.openWith o = w ++ (openText o.type ++ o.attributes.flatMap attributeText) := by
  rw [Writer.openWith, foldl_append addAttribute_eq, Writer.openObject, openText]
  simp only [List.append_assoc]

theorem add_eq (w : Writer) (o : Object) : w.add o = w ++ o.text := by
  rw [Writer.add, Writer.closeObject, openWith_eq, Object.text, List.append_assoc]

theorem write_eq (objs : List Object) : write objs = objs.flatMap Object.text :=
  foldl_append add_eq objs []

/-! ## One token -/

section Loop

variable {size : ℕ} {p : Parser}

theorem loop_blank {c : Char} (hc : blank p.state c) (s : List Char) :
    loop size p (c :: s) = loop size p s := by
  have hskip : skip (blank p.state) false (c :: s) = skip (blank p.state) false s := by
    rw [skip, if_neg Bool.false_ne_true, if_pos hc]
  cases h : skip (blank p.state) false s with
  | nil => rw [loop_of_skip_nil h, loop_of_skip_nil (hskip.trans h)]
  | cons x rest => rw [loop_of_skip_cons h, loop_of_skip_cons (hskip.trans h)]

/-- A token that no comment begins with, up to a character that ends it. -/
theorem loop_token {s rest : List Char} {c : Char} (hends : ∀ x ∈ s, ends p.state x = false)
    (hc : ends p.state c)
    (hhead : ∀ x ∈ (s ++ c :: rest).head?, blank p.state x = false ∧ x ≠ '#') :
    loop size p (s ++ c :: rest) =
      (p.token (size - (s ++ c :: rest).length) s).bind fun p' => loop size p' (c :: rest) := by
  have htake : (s ++ c :: rest).takeWhile (fun x => !ends p.state x) = s := by
    rw [List.takeWhile_append_of_pos (fun x hx => by rw [hends x hx]; rfl), List.takeWhile_cons, hc]
    simp
  have hdrop : (s ++ c :: rest).dropWhile (fun x => !ends p.state x) = c :: rest := by
    rw [List.dropWhile_append_of_pos (fun x hx => by rw [hends x hx]; rfl), List.dropWhile_cons, hc]
    simp
  have hskip : skip (blank p.state) false (s ++ c :: rest) = s ++ c :: rest := by
    cases h : s ++ c :: rest with
    | nil => rfl
    | cons x t =>
      rw [h] at hhead
      obtain ⟨hblank, hhash⟩ := hhead x rfl
      rw [skip, if_neg Bool.false_ne_true, if_neg (Bool.eq_false_iff.mp hblank), if_neg hhash]
  cases h : s ++ c :: rest with
  | nil => simp at h
  | cons x t => rw [loop_of_skip_cons (h ▸ hskip), ← h, htake, hdrop]

theorem blank_space (state : State) : blank state ' ' := by cases state <;> rfl

/-- Nothing in a word ends a token, or is skipped before one. -/
theorem not_ends_of_word {w : List Char} (hw : Word w) (state : State) :
    ∀ c ∈ w, ends state c = false ∧ blank state c = false := by
  intro c hc
  obtain ⟨hspace, htab, hnewline⟩ := hw.2 c hc
  cases state <;> simp [ends, blank, hspace, htab, hnewline]

/-- A word is a token when no comment begins with it, where newlines are skipped. -/
theorem loop_word (hstate : blank p.state '\n') {w rest : List Char}
    (hw : Word w) (hcomment : NoComment w) {c : Char} (hc : c = ' ' ∨ c = '\n') :
    loop size p (w ++ c :: rest) =
      (p.token (size - (w ++ c :: rest).length) w).bind fun p' => loop size p' (c :: rest) := by
  have hends : ends p.state c := by
    revert hstate
    rcases hc with rfl | rfl <;> cases p.state <;> simp [ends, blank]
  refine loop_token (fun x hx => (not_ends_of_word hw _ x hx).1) hends ?_
  intro x hx
  rw [List.head?_append_of_ne_nil _ hw.1] at hx
  refine ⟨(not_ends_of_word hw _ x (List.mem_of_mem_head? hx)).2, ?_⟩
  rintro rfl
  exact hcomment hx

/-- The parser in an object. -/
def Parser.inObject (parent_token : ℤ) (tokens : List Token) : Parser :=
  { state := .in_object_waiting_for_key, parent_token := parent_token, tokens := tokens }

/-- The parser between objects. -/
def Parser.outside (parent_token : ℤ) (tokens : List Token) : Parser :=
  { state := .waiting_for_define, parent_token := parent_token, tokens := tokens }

theorem loop_open {type : List Char} (htype : Word type) (hcomment : NoComment type) (parent : ℤ)
    (tokens : List Token) (rest : List Char) :
    loop size (.outside parent tokens) (openText type ++ rest) =
      loop size (.inObject tokens.length (tokens ++ [⟨.object, type, tokens.length, -1⟩])) rest := by
  have hdefine : Word define := by decide
  have hbrace : Word ['{'] := by decide
  have htext : openText type ++ rest =
      define ++ ' ' :: (type ++ ' ' :: (['{'] ++ '\n' :: rest)) := by simp [openText]
  rw [htext, loop_word rfl hdefine (by decide) (.inl rfl)]
  show loop size { state := .waiting_for_object_name, parent_token := parent, tokens := tokens }
    (' ' :: _) = _
  rw [loop_blank (blank_space _), loop_word rfl htype hcomment (.inl rfl)]
  show loop size { state := .waiting_for_object_opening, parent_token := tokens.length, tokens := _ }
    (' ' :: _) = _
  rw [loop_blank (blank_space _), loop_word rfl hbrace (by decide) (.inr rfl)]
  exact loop_blank rfl rest

theorem trim_of_text {v : List Char} (hv : Text v) : trim v = v := by
  rw [trim, List.rdropWhile_eq_self_iff]
  intro hne
  obtain ⟨hspace, htab⟩ := hv.2.2 _ (List.getLast?_eq_getLast_of_ne_nil hne)
  simp [hspace, htab]

/-- The tokens of an attribute, behind that many. -/
def attributeTokens (parent_token : ℤ) (n : ℕ) (a : List Char × List Char) : List Token :=
  [⟨.key, a.1, n, parent_token⟩, ⟨.value, a.2, n + 1, parent_token⟩]

variable {a : List Char × List Char}

/-- An attribute is read up to its value, at which nothing may be wrong. -/
theorem loop_attribute (hkey : Word a.1) (hbrace : a.1 ≠ ['}'])
    (hvalue : Text a.2) (hcomment : NoComment a.1) (hcomment' : NoComment a.2) (parent : ℤ)
    (tokens : List Token) (rest : List Char) :
    (a.2 ≠ ['}'] → loop size (.inObject parent tokens) (attributeText a ++ rest) =
      loop size (.inObject parent (tokens ++ attributeTokens parent tokens.length a)) rest) ∧
    (a.2 = ['}'] →
      ∃ e, loop size (.inObject parent tokens) (attributeText a ++ rest) = .error e) := by
  have htext : attributeText a ++ rest = a.1 ++ ' ' :: (a.2 ++ '\n' :: rest) := by
    simp [attributeText]
  -- a value ends with the line
  have hends : ∀ x ∈ a.2, ends .in_object_waiting_for_value x = false := by
    intro x hx
    have hne : x ≠ '\n' := fun he => hvalue.1 (he ▸ hx)
    simp [ends, hne]
  have hhead : ∀ x ∈ (a.2 ++ '\n' :: rest).head?,
      blank .in_object_waiting_for_value x = false ∧ x ≠ '#' := by
    intro x hx
    by_cases hnil : a.2 = []
    · rw [hnil] at hx
      cases hx
      decide
    · rw [List.head?_append_of_ne_nil _ hnil] at hx
      obtain ⟨hspace, htab⟩ := hvalue.2.1 x hx
      refine ⟨by simp [blank, hspace, htab], ?_⟩
      rintro rfl
      exact hcomment' hx
  rw [htext, loop_word rfl hkey hcomment (.inl rfl)]
  have htoken : (Parser.inObject parent tokens).token
      (size - (a.1 ++ ' ' :: (a.2 ++ '\n' :: rest)).length) a.1 = .ok
        { state := .in_object_waiting_for_value, parent_token := parent
          tokens := tokens ++ [⟨.key, a.1, tokens.length, parent⟩] } := if_neg hbrace
  rw [htoken]
  show (_ → loop size _ (' ' :: _) = _) ∧ (_ → ∃ e, loop size _ (' ' :: _) = _)
  rw [loop_blank (blank_space _), loop_token hends rfl hhead, Parser.token]
  dsimp only
  constructor
  · intro hne
    rw [if_neg hne, trim_of_text hvalue]
    show loop size _ ('\n' :: rest) = _
    rw [loop_blank rfl, Parser.inObject, attributeTokens]
    simp
  · intro heq
    rw [if_pos heq]
    exact ⟨_, rfl⟩

theorem loop_close (parent : ℤ) (tokens : List Token) (rest : List Char) :
    loop size (.inObject parent tokens) (['}', '\n'] ++ rest) =
      loop size (.outside parent tokens) rest := by
  have hbrace : Word ['}'] := by decide
  show loop size (.inObject parent tokens) (['}'] ++ '\n' :: rest) = _
  rw [loop_word rfl hbrace (by decide) (.inr rfl)]
  exact loop_blank rfl rest

/-! ## The tokens of what is written -/

def attributesTokens (parent_token : ℤ) : ℕ → List (List Char × List Char) → List Token
  | _, [] => []
  | n, a :: as => attributeTokens parent_token n a ++ attributesTokens parent_token (n + 2) as

def Object.tokens (n : ℕ) (o : Object) : List Token :=
  ⟨.object, o.type, n, -1⟩ :: attributesTokens n (n + 1) o.attributes

def objectsTokens : ℕ → List Object → List Token
  | _, [] => []
  | n, o :: objs => o.tokens n ++ objectsTokens (n + (o.tokens n).length) objs

/-- Attributes that can be read. -/
structure Readable (as : List (List Char × List Char)) : Prop where
  keys : ∀ a ∈ as, Word a.1 ∧ a.1 ≠ ['}'] ∧ NoComment a.1
  values : ∀ a ∈ as, Text a.2 ∧ NoComment a.2

variable {as : List (List Char × List Char)}

theorem Readable.tail
    (h : Readable (a :: as)) : Readable as :=
  ⟨fun b hb => h.keys b (List.mem_cons_of_mem a hb),
    fun b hb => h.values b (List.mem_cons_of_mem a hb)⟩

/-- The first attribute, and what is behind it. -/
theorem Readable.loop_cons
    (h : Readable (a :: as)) (hbrace : a.2 ≠ ['}']) (parent : ℤ) (tokens : List Token)
    (rest : List Char) :
    loop size (.inObject parent tokens) ((a :: as).flatMap attributeText ++ rest) =
      loop size (.inObject parent (tokens ++ attributeTokens parent tokens.length a))
        (as.flatMap attributeText ++ rest) := by
  obtain ⟨hkey, hclose, hcomment⟩ := h.keys a List.mem_cons_self
  obtain ⟨hvalue, hcomment'⟩ := h.values a List.mem_cons_self
  rw [List.flatMap_cons, List.append_assoc]
  exact (loop_attribute hkey hclose hvalue hcomment hcomment' parent tokens _).1 hbrace

theorem loop_attributes (h : Readable as)
    (hbrace : ∀ a ∈ as, a.2 ≠ ['}']) (parent : ℤ) (tokens : List Token) (rest : List Char) :
    loop size (.inObject parent tokens) (as.flatMap attributeText ++ rest) =
      loop size (.inObject parent (tokens ++ attributesTokens parent tokens.length as)) rest := by
  induction as generalizing tokens with
  | nil => rw [attributesTokens, List.append_nil]; rfl
  | cons a as ih =>
    rw [h.loop_cons (hbrace a List.mem_cons_self),
      ih h.tail (fun b hb => hbrace b (List.mem_cons_of_mem a hb)), List.append_assoc]
    have hlength : (tokens ++ attributeTokens parent tokens.length a).length = tokens.length + 2 :=
      List.length_append
    rw [hlength, attributesTokens]

/-- At a value that is a closing brace the parser throws. -/
theorem loop_brace (h : Readable as)
    (hbrace : ∃ a ∈ as, a.2 = ['}']) (parent : ℤ) (tokens : List Token) (rest : List Char) :
    ∃ e, loop size (.inObject parent tokens) (as.flatMap attributeText ++ rest) = .error e := by
  induction as generalizing tokens with
  | nil =>
    obtain ⟨a, ha, -⟩ := hbrace
    exact absurd ha List.not_mem_nil
  | cons a as ih =>
    by_cases heq : a.2 = ['}']
    · obtain ⟨hkey, hclose, hcomment⟩ := h.keys a List.mem_cons_self
      obtain ⟨hvalue, hcomment'⟩ := h.values a List.mem_cons_self
      rw [List.flatMap_cons, List.append_assoc]
      exact (loop_attribute hkey hclose hvalue hcomment hcomment' parent tokens _).2 heq
    · rw [h.loop_cons heq]
      obtain ⟨b, hb, hvalue⟩ := hbrace
      rcases List.mem_cons.mp hb with rfl | hmem
      · exact absurd hvalue heq
      · exact ih h.tail ⟨b, hmem, hvalue⟩ _

/-- No comment begins with what is written of an object. -/
structure Object.Uncommented (o : Object) : Prop where
  type : NoComment o.type
  keys : ∀ a ∈ o.attributes, NoComment a.1
  values : ∀ a ∈ o.attributes, NoComment a.2

variable {o : Object}

theorem Object.Harmless.uncommented (h : o.Harmless) : o.Uncommented :=
  ⟨h.type, h.keys, fun a ha => (h.values a ha).1⟩

theorem Object.Uncommented.readable (h : o.Uncommented) : Readable o.attributes :=
  ⟨fun a ha => ⟨(o.keys_word a ha).1, (o.keys_word a ha).2, h.keys a ha⟩,
    fun a ha => ⟨o.values_text a ha, h.values a ha⟩⟩

theorem loop_openWith (h : o.Harmless) (parent : ℤ) (tokens : List Token)
    (rest : List Char) :
    loop size (.outside parent tokens)
        (openText o.type ++ o.attributes.flatMap attributeText ++ rest) =
      loop size (.inObject tokens.length (tokens ++ o.tokens tokens.length)) rest := by
  have hlength : (tokens ++ [(⟨.object, o.type, tokens.length, -1⟩ : Token)]).length =
      tokens.length + 1 := List.length_append
  rw [List.append_assoc, loop_open o.type_word h.type,
    loop_attributes h.uncommented.readable (fun a ha => (h.values a ha).2), hlength,
    List.append_assoc]
  rfl

theorem loop_object (h : o.Harmless) (parent : ℤ) (tokens : List Token)
    (rest : List Char) :
    loop size (.outside parent tokens) (o.text ++ rest) =
      loop size (.outside tokens.length (tokens ++ o.tokens tokens.length)) rest := by
  rw [Object.text, List.append_assoc, loop_openWith h, loop_close]

theorem loop_objects {objs : List Object} (h : ∀ o ∈ objs, o.Harmless) (parent : ℤ)
    (tokens : List Token) (rest : List Char) :
    ∃ parent', loop size (.outside parent tokens) (objs.flatMap Object.text ++ rest) =
      loop size (.outside parent' (tokens ++ objectsTokens tokens.length objs)) rest := by
  induction objs generalizing parent tokens with
  | nil => exact ⟨parent, by rw [objectsTokens, List.append_nil]; rfl⟩
  | cons o objs ih =>
    obtain ⟨ho, hobjs⟩ := List.forall_mem_cons.mp h
    obtain ⟨parent', hloop⟩ := ih hobjs tokens.length (tokens ++ o.tokens tokens.length)
    refine ⟨parent', ?_⟩
    rw [List.flatMap_cons, List.append_assoc, loop_object ho, hloop, List.append_assoc,
      List.length_append, objectsTokens]

/-- Objects without comments, of which one has a closing brace for a value. -/
theorem loop_objects_brace {objs : List Object} (h : ∀ o ∈ objs, o.Uncommented)
    (hbrace : ∃ o ∈ objs, ∃ a ∈ o.attributes, a.2 = ['}']) (parent : ℤ) (tokens : List Token)
    (rest : List Char) :
    ∃ e, loop size (.outside parent tokens) (objs.flatMap Object.text ++ rest) = .error e := by
  induction objs generalizing parent tokens with
  | nil =>
    obtain ⟨o, ho, -⟩ := hbrace
    exact absurd ho List.not_mem_nil
  | cons o objs ih =>
    obtain ⟨ho, hobjs⟩ := List.forall_mem_cons.mp h
    rw [List.flatMap_cons, List.append_assoc]
    by_cases hvalues : ∃ a ∈ o.attributes, a.2 = ['}']
    · rw [Object.text, List.append_assoc, List.append_assoc, loop_open o.type_word ho.type]
      exact loop_brace ho.readable hvalues _ _ _
    · have hharmless : o.Harmless :=
        ⟨ho.type, ho.keys, fun a ha => ⟨ho.values a ha, fun he => hvalues ⟨a, ha, he⟩⟩⟩
      rw [loop_object hharmless]
      obtain ⟨o', ho', hvalues'⟩ := hbrace
      rcases List.mem_cons.mp ho' with rfl | hmem
      · exact absurd hvalues' hvalues
      · exact ih hobjs ⟨o', hmem, hvalues'⟩ _ _

end Loop

/-! ## What is read -/

variable {t : Token}

theorem mem_attributesTokens {parent : ℤ} {n : ℕ} {as : List (List Char × List Char)}
    (h : t ∈ attributesTokens parent n as) : t.parent_token = parent := by
  induction as generalizing n with
  | nil => exact absurd h List.not_mem_nil
  | cons a as ih =>
    rcases List.mem_append.mp h with hhead | htail
    · rcases List.mem_cons.mp hhead with rfl | hvalue
      · rfl
      · rw [List.mem_singleton.mp hvalue]
    · exact ih htail

variable {objs : List Object}

/-- The parents of tokens are objects that come later than what is before them. -/
theorem mem_objectsTokens {n : ℕ}
    (h : t ∈ objectsTokens n objs) : t.parent_token = -1 ∨ (n : ℤ) ≤ t.parent_token := by
  induction objs generalizing n with
  | nil => exact absurd h List.not_mem_nil
  | cons o objs ih =>
    rcases List.mem_append.mp h with hhead | htail
    · rcases List.mem_cons.mp hhead with rfl | hattribute
      · exact .inl rfl
      · exact .inr (Int.le_of_eq (mem_attributesTokens hattribute).symm)
    · refine (ih htail).imp_right fun hle => ?_
      push_cast at hle
      omega

/-- The children of an object are the tokens of its attributes. -/
theorem deserialize_attributes {parent : ℤ} {rest : List Token}
    (hrest : ∀ t ∈ rest, t.parent_token ≠ parent) {as : List (List Char × List Char)}
    (has : as ≠ []) (values : Values) (n : ℕ) :
    deserialize values (attributesTokens parent n as ++ rest) =
      as.foldl Values.insert values := by
  induction as generalizing values n with
  | nil => exact absurd rfl has
  | cons a as ih =>
    have hnext : Iterator.next (⟨.key, a.1, n, parent⟩ ::
        ⟨.value, a.2, n + 1, parent⟩ :: (attributesTokens parent (n + 2) as ++ rest)) =
          ⟨.value, a.2, n + 1, parent⟩ :: (attributesTokens parent (n + 2) as ++ rest) := by
      rw [Iterator.next, List.dropWhile_cons_of_neg (by simp)]
    have hdeserialize := @deserialize_cons _ values _ _ _ hnext
    rw [List.foldl_cons]
    refine hdeserialize.trans ?_
    cases as with
    | nil =>
      -- behind the last value there are no more tokens of this parent
      have hend : Iterator.next (⟨.value, a.2, n + 1, parent⟩ :: rest) = [] := by
        rw [Iterator.next, List.dropWhile_eq_nil_iff]
        exact fun t ht => decide_eq_true (hrest t ht)
      show deserialize _ (Iterator.next (⟨.value, a.2, n + 1, parent⟩ :: rest)) = _
      rw [hend, deserialize]
      rfl
    | cons b bs =>
      have hmore : Iterator.next (⟨.value, a.2, n + 1, parent⟩ ::
          (attributesTokens parent (n + 2) (b :: bs) ++ rest)) =
            attributesTokens parent (n + 2) (b :: bs) ++ rest := by
        rw [Iterator.next, attributesTokens, attributeTokens]
        exact List.dropWhile_cons_of_neg (by simp)
      rw [hmore]
      exact ih (List.cons_ne_nil b bs) _ _

theorem objects_tokens (n : ℕ) (objs : List Object) :
    objects (objectsTokens n objs) = objs.map fun o => (o.type, valuesOf o.attributes) := by
  induction objs generalizing n with
  | nil => rw [objectsTokens, objects]; rfl
  | cons o objs ih =>
    have hlater : ∀ t ∈ objectsTokens (n + (o.tokens n).length) objs,
        t.parent_token = -1 ∨ (n : ℤ) < t.parent_token := by
      intro t ht
      refine (mem_objectsTokens ht).imp_right fun hle => ?_
      have hpos : 0 < (o.tokens n).length := List.length_pos_of_ne_nil (List.cons_ne_nil _ _)
      push_cast at hle
      omega
    have hrest : ∀ t ∈ objectsTokens (n + (o.tokens n).length) objs, t.parent_token ≠ (n : ℤ) := by
      intro t ht he
      rcases hlater t ht with hminus | hlt <;> omega
    -- the next token without a parent is that of the next object
    have hnext : Iterator.next (o.tokens n ++ objectsTokens (n + (o.tokens n).length) objs) =
        objectsTokens (n + (o.tokens n).length) objs := by
      have hattributes : ∀ t ∈ attributesTokens n (n + 1) o.attributes,
          decide (t.parent_token ≠ -1) = true := by
        intro t ht
        rw [mem_attributesTokens ht]
        exact decide_eq_true (by omega)
      show ((attributesTokens n (n + 1) o.attributes ++ _).dropWhile _) = _
      rw [List.dropWhile_append_of_pos hattributes]
      cases objs with
      | nil => rfl
      | cons o' objs => exact List.dropWhile_cons_of_neg (by simp)
    have hchildren : deserialize (fun _ => none)
        (Iterator.enterChildren (o.tokens n ++ objectsTokens (n + (o.tokens n).length) objs)) =
          valuesOf o.attributes := by
      cases hattributes : o.attributes with
      | nil =>
        have hnone : Iterator.hasChildren
            (o.tokens n ++ objectsTokens (n + (o.tokens n).length) objs) = false := by
          rw [Object.tokens, hattributes]
          cases hobjs : objectsTokens (n + (o.tokens n).length) objs with
          | nil =>
            rw [Object.tokens, hattributes] at hobjs
            rw [hobjs]
            rfl
          | cons t rest =>
            have hne := hrest t (by rw [hobjs]; exact List.mem_cons_self)
            rw [Object.tokens, hattributes] at hobjs
            rw [hobjs]
            exact decide_eq_false hne
        rw [Iterator.enterChildren, hnone, if_neg Bool.false_ne_true, deserialize]
        rfl
      | cons a as =>
        have hsome : Iterator.hasChildren
            (o.tokens n ++ objectsTokens (n + (o.tokens n).length) objs) = true := by
          rw [Object.tokens, hattributes]
          exact decide_eq_true rfl
        rw [Iterator.enterChildren, hsome, if_pos rfl]
        show deserialize _ (attributesTokens n (n + 1) o.attributes ++ _) = _
        rw [hattributes]
        exact deserialize_attributes hrest (List.cons_ne_nil a as) _ _
    show objects (⟨.object, o.type, n, -1⟩ :: (attributesTokens n (n + 1) o.attributes ++ _)) = _
    rw [objects, List.map_cons]
    exact List.cons_eq_cons.mpr ⟨Prod.ext rfl hchildren, (congrArg objects hnext).trans (ih _)⟩

/-! ## What no token begins with -/

theorem NoComment.mono {s t : List Char} (hinit : s <+: t) (h : NoComment t) :
    NoComment s := by
  obtain ⟨r, rfl⟩ := hinit
  cases s with
  | nil => exact nofun
  | cons c s => exact h

theorem value_of_token {p p' : Parser} {actual : ℕ} {substr : List Char}
    (h : p.token actual substr = .ok p') (ht : t ∈ p'.tokens) :
    t ∈ p.tokens ∨ t.value <+: substr := by
  unfold Parser.token at h
  split at h
  · split at h
    · cases h
    · cases h
      exact .inl ht
  · cases h
    refine (List.mem_append.mp ht).imp_right fun ht => ?_
    obtain rfl := List.mem_singleton.mp ht
    exact List.prefix_refl _
  · split at h
    · cases h
    · cases h
      exact .inl ht
  · split at h
    · cases h
      exact .inl ht
    · cases h
      refine (List.mem_append.mp ht).imp_right fun ht => ?_
      obtain rfl := List.mem_singleton.mp ht
      exact List.prefix_refl _
  · split at h
    · cases h
    · cases h
      refine (List.mem_append.mp ht).imp_right fun ht => ?_
      rw [List.mem_singleton.mp ht]
      exact List.rdropWhile_prefix _ _

/-- Each token begins behind the comments. -/
theorem noComment_of_loop {size : ℕ} {p : Parser} {s : List Char} {tokens : List Token}
    (h : loop size p s = .ok tokens) (hp : ∀ t ∈ p.tokens, NoComment t.value) :
    ∀ t ∈ tokens, NoComment t.value := by
  induction hm : measure p s using Nat.strong_induction_on generalizing p s with
  | h m ih =>
    cases hskip : skip (blank p.state) false s with
    | nil =>
      rw [loop_of_skip_nil hskip] at h
      cases h
      exact hp
    | cons c rest =>
      rw [loop_of_skip_cons hskip] at h
      obtain ⟨p', htoken, hloop⟩ : ∃ p', p.token (size - (c :: rest).length)
          ((c :: rest).takeWhile fun x => !ends p.state x) = .ok p' ∧
            loop size p' ((c :: rest).dropWhile fun x => !ends p.state x) = .ok tokens := by
        cases htoken : p.token (size - (c :: rest).length)
            ((c :: rest).takeWhile fun x => !ends p.state x) with
        | error e =>
          rw [htoken] at h
          cases h
        | ok p' =>
          rw [htoken] at h
          exact ⟨p', rfl, h⟩
      have hhead : NoComment (c :: rest) := fun he => (skip_head hskip).2 (Option.some.inj he)
      refine ih _ (hm ▸ measure_lt hskip htoken) hloop (fun t ht => ?_) rfl
      rcases value_of_token htoken ht with hmem | hinit
      · exact hp t hmem
      · exact (hhead.mono (List.takeWhile_prefix _)).mono hinit

variable {it : Iterator}

theorem mem_of_mem_next (h : t ∈ it.next) : t ∈ it := by
  cases it with
  | nil => exact h
  | cons u it => exact List.mem_cons_of_mem u ((List.dropWhile_suffix _).subset h)

/-- What is deserialized are tokens. -/
theorem deserialize_of_tokens {P : List Char → Prop} {values : Values}
    (hit : ∀ t ∈ it, P t.value) (hvalues : ∀ k v, values k = some v → P k ∧ P v) {k v : List Char}
    (h : deserialize values it k = some v) : P k ∧ P v := by
  induction hm : it.length using Nat.strong_induction_on generalizing it values with
  | h m ih =>
    cases it with
    | nil =>
      rw [deserialize] at h
      exact hvalues k v h
    | cons t it =>
      cases hnext : Iterator.next (t :: it) with
      | nil =>
        rw [deserialize_of_next_nil hnext] at h
        exact hvalues k v h
      | cons u it' =>
        rw [deserialize_cons hnext] at h
        have hlt : (Iterator.next (u :: it')).length < m := by
          have hlength : (Iterator.next (t :: it)).length < (t :: it).length := length_next_lt
          rw [hnext] at hlength
          rw [← hm]
          exact Nat.lt_trans length_next_lt hlength
        have hmem : ∀ t' ∈ u :: it', P t'.value := by
          intro t' ht'
          rw [← hnext] at ht'
          exact hit t' (mem_of_mem_next ht')
        refine ih _ hlt (fun t' ht' => hmem t' (mem_of_mem_next ht')) (fun k v hkv => ?_) h rfl
        by_cases hk : k = t.value
        · subst hk
          rw [Function.update_self] at hkv
          cases hkv
          exact ⟨hit t List.mem_cons_self, hmem u List.mem_cons_self⟩
        · rw [Function.update_of_ne hk] at hkv
          exact hvalues k v hkv

theorem objects_of_tokens {P : List Char → Prop} (hit : ∀ t ∈ it, P t.value)
    {o : List Char × Values} (ho : o ∈ objects it) :
    P o.1 ∧ ∀ k v, o.2 k = some v → P k ∧ P v := by
  induction hm : it.length using Nat.strong_induction_on generalizing it with
  | h m ih =>
    cases it with
    | nil =>
      rw [objects] at ho
      exact absurd ho List.not_mem_nil
    | cons t it =>
      rw [objects] at ho
      rcases List.mem_cons.mp ho with rfl | hmem
      · refine ⟨hit t List.mem_cons_self, fun k v hkv => ?_⟩
        refine deserialize_of_tokens (fun t' ht' => hit t' ?_) (by simp) hkv
        unfold Iterator.enterChildren at ht'
        split at ht'
        · exact List.mem_of_mem_tail ht'
        · exact absurd ht' List.not_mem_nil
      · exact ih _ (hm ▸ length_next_lt) (fun t' ht' => hit t' (mem_of_mem_next ht')) hmem rfl

/-! ## The round trip -/

theorem foldl_insert_of_not_mem {as : List (List Char × List Char)} {k : List Char}
    (h : k ∉ as.map Prod.fst) (values : Values) : as.foldl Values.insert values k = values k := by
  induction as generalizing values with
  | nil => rfl
  | cons a as ih =>
    obtain ⟨hne, hrest⟩ := not_or.mp (fun hmem => h (List.mem_cons.mpr hmem))
    rw [List.foldl_cons, ih hrest]
    exact Function.update_of_ne hne _ _

/-- Under each key there is its value. -/
theorem foldl_insert_of_mem {as : List (List Char × List Char)} (h : (as.map Prod.fst).Nodup)
    {a : List Char × List Char} (ha : a ∈ as) (values : Values) :
    as.foldl Values.insert values a.1 = some a.2 := by
  induction as generalizing values with
  | nil => exact absurd ha List.not_mem_nil
  | cons b as ih =>
    rw [List.map_cons, List.nodup_cons] at h
    rw [List.foldl_cons]
    rcases List.mem_cons.mp ha with rfl | hmem
    · rw [foldl_insert_of_not_mem h.1]
      exact Function.update_self _ _ _
    · exact ih h.2 hmem _

theorem parse_write (h : ∀ o ∈ objs, o.Harmless) :
    parse (write objs) = .ok (objectsTokens 0 objs) := by
  obtain ⟨parent, hloop⟩ := @loop_objects (write objs).length objs h (-1) [] []
  rw [List.append_nil, ← write_eq] at hloop
  refine hloop.trans ?_
  rw [loop_of_skip_nil rfl]
  rfl

/-- Objects are read back exactly when no comment begins with a type, a key or a value, and no value
is a closing brace. -/
theorem roundTrips_iff (objs : List Object) : RoundTrips objs ↔ ∀ o ∈ objs, o.Harmless := by
  constructor
  · rintro ⟨tokens, hparse, hobjects⟩
    have htokens := noComment_of_loop hparse (List.forall_mem_nil _)
    have huncommented : ∀ o ∈ objs, o.Uncommented := by
      intro o ho
      have hmem : (o.type, valuesOf o.attributes) ∈ objects tokens :=
        hobjects ▸ List.mem_map_of_mem ho
      obtain ⟨htype, hvalues⟩ := objects_of_tokens htokens hmem
      have hattribute : ∀ a ∈ o.attributes, NoComment a.1 ∧ NoComment a.2 :=
        fun a ha => hvalues a.1 a.2 (foldl_insert_of_mem o.keys_nodup ha fun _ => none)
      exact ⟨htype, fun a ha => (hattribute a ha).1, fun a ha => (hattribute a ha).2⟩
    intro o ho
    have hu := huncommented o ho
    refine ⟨hu.type, hu.keys, fun a ha => ⟨hu.values a ha, fun hbrace => ?_⟩⟩
    obtain ⟨e, herror⟩ := @loop_objects_brace (write objs).length objs huncommented
      ⟨o, ho, a, ha, hbrace⟩ (-1) [] []
    rw [List.append_nil, ← write_eq] at herror
    cases hparse.symm.trans herror
  · intro h
    exact ⟨_, parse_write h, objects_tokens 0 objs⟩

/-! ## Unfinished files -/

/-- A key without a value is dropped, and so is what should close the object. -/
theorem loop_end {size : ℕ} (parent : ℤ) (tokens : List Token) (key : Option Key)
    (hkey : ∀ k ∈ key, NoComment k.1) :
    ∃ tokens', loop size (.inObject parent tokens) (key.elim [] fun k => k.1 ++ [' ']) =
      .ok tokens' := by
  cases key with
  | none => exact ⟨_, loop_of_skip_nil rfl⟩
  | some k =>
    have hword := @loop_word size (.inObject parent tokens) rfl k.1 [] k.2.1 (hkey k rfl) ' ' (.inl rfl)
    have htoken : (Parser.inObject parent tokens).token (size - (k.1 ++ [' ']).length) k.1 = .ok
        { state := .in_object_waiting_for_value, parent_token := parent
          tokens := tokens ++ [⟨.key, k.1, tokens.length, parent⟩] } := if_neg k.2.2
    rw [htoken] at hword
    exact ⟨_, hword.trans (loop_of_skip_nil rfl)⟩

theorem unfinished_eq (objs : List Object) (o : Object) (key : Option Key) :
    unfinished objs o key = objs.flatMap Object.text ++
      (openText o.type ++ o.attributes.flatMap attributeText ++
        key.elim [] fun k => k.1 ++ [' ']) := by
  have hopen := openWith_eq (write objs) o
  rw [write_eq] at hopen
  cases key with
  | none => simpa [unfinished, write_eq] using hopen
  | some k => simp [unfinished, Writer.addKey, write_eq, hopen]

/-- No comment begins with the types, the keys and the values of an unfinished file. -/
structure UncommentedFile (objs : List Object) (o : Object) (key : Option Key) : Prop where
  objects : ∀ o' ∈ objs, o'.Uncommented
  last : o.Uncommented
  key : ∀ k ∈ key, NoComment k.1

/-- That a file is not finished is no reason to reject it. -/
theorem rejected_unfinished_iff {o : Object} {key : Option Key}
    (h : UncommentedFile objs o key) : Rejected (unfinished objs o key) ↔
      ∃ o' ∈ objs ++ [o], ∃ a ∈ o'.attributes, a.2 = ['}'] := by
  have harmless : ∀ {o' : Object}, o'.Uncommented → (¬ ∃ a ∈ o'.attributes, a.2 = ['}']) →
      o'.Harmless := fun hu hbrace =>
    ⟨hu.type, hu.keys, fun a ha => ⟨hu.values a ha, fun he => hbrace ⟨a, ha, he⟩⟩⟩
  rw [Rejected, parse]
  generalize (unfinished objs o key).length = size
  rw [unfinished_eq]
  by_cases hobjs : ∃ o' ∈ objs, ∃ a ∈ o'.attributes, a.2 = ['}']
  · obtain ⟨o', ho', hbrace⟩ := hobjs
    exact iff_of_true (loop_objects_brace h.objects ⟨o', ho', hbrace⟩ _ _ _)
      ⟨o', List.mem_append_left _ ho', hbrace⟩
  · have hharmless : ∀ o' ∈ objs, o'.Harmless :=
      fun o' ho' => harmless (h.objects o' ho') fun hbrace => hobjs ⟨o', ho', hbrace⟩
    obtain ⟨parent, hloop⟩ := @loop_objects size objs hharmless (-1) []
      (openText o.type ++ o.attributes.flatMap attributeText ++ key.elim [] fun k => k.1 ++ [' '])
    rw [show Parser.init = .outside (-1) [] from rfl, hloop]
    by_cases hlast : ∃ a ∈ o.attributes, a.2 = ['}']
    · refine iff_of_true ?_ ⟨o, List.mem_append_right _ List.mem_cons_self, hlast⟩
      rw [List.append_assoc, loop_open o.type_word h.last.type]
      exact loop_brace h.last.readable hlast _ _ _
    · refine iff_of_false ?_ ?_
      · rw [loop_openWith (harmless h.last hlast)]
        obtain ⟨tokens, hend⟩ := @loop_end size _ _ key h.key
        rintro ⟨e, herror⟩
        cases hend.symm.trans herror
      · rintro ⟨o', ho', hbrace⟩
        rcases List.mem_append.mp ho' with hmem | hmem
        · exact hobjs ⟨o', hmem, hbrace⟩
        · exact hlast (List.mem_singleton.mp hmem ▸ hbrace)

/-- **Object files.** Objects are read back if and only if no comment begins with what is written and
no value is a closing brace. Where no comment begins, an unfinished file is rejected only when some
value is a closing brace. -/
theorem file_iff (objs : List Object) (o : Object) (key : Option Key) :
    (RoundTrips objs ↔ ∀ o ∈ objs, o.Harmless) ∧
      (UncommentedFile objs o key → (Rejected (unfinished objs o key) ↔
        ∃ o' ∈ objs ++ [o], ∃ a ∈ o'.attributes, a.2 = ['}'])) :=
  ⟨roundTrips_iff objs, rejected_unfinished_iff⟩

/-- An object with a comment of one letter. -/
def commented (c : Char) (hc : Text [c]) : Object where
  type := ['d']
  attributes := [(['c'], [c])]
  type_word := by decide
  keys_word := List.forall_mem_singleton.mpr
    (show Word ['c'] ∧ ['c'] ≠ ['}'] by decide)
  values_text := List.forall_mem_singleton.mpr hc
  keys_nodup := by simp

theorem text_letter : Text ['x'] := ⟨by decide, by simp, by simp⟩

theorem text_hash : Text ['#'] := ⟨by decide, by simp, by simp⟩

theorem uncommented_letter : UncommentedFile [] (commented 'x' text_letter) none :=
  ⟨List.forall_mem_nil _, ⟨by decide, List.forall_mem_singleton.mpr (by decide),
    List.forall_mem_singleton.mpr (by decide)⟩, by simp⟩

/-- An object with a name of two words, and nothing under another key. -/
def named : Object where
  type := ['h']
  attributes := [(['n'], ['a', ' ', 'b']), (['k'], [])]
  type_word := by decide
  keys_word := by
    have hwords : (Word ['n'] ∧ ['n'] ≠ ['}']) ∧ Word ['k'] ∧ ['k'] ≠ ['}'] := by decide
    simpa using hwords
  values_text := by simp [Text]
  keys_nodup := by decide

theorem uncommented_named :
    UncommentedFile [commented 'x' text_letter] named (some ⟨['k'], by decide⟩) where
  objects := List.forall_mem_singleton.mpr uncommented_letter.last
  last := ⟨by decide, by simp [named, NoComment], by simp [named, NoComment]⟩
  key := by simp [NoComment]

/-- Two objects, the second of which has a key at its end when it is not closed. -/
theorem file_iff_letter :
    (RoundTrips [commented 'x' text_letter, named] ↔
        ∀ o ∈ [commented 'x' text_letter, named], o.Harmless) ∧
      (Rejected (unfinished [commented 'x' text_letter] named (some ⟨['k'], by decide⟩)) ↔
        ∃ o' ∈ [commented 'x' text_letter] ++ [named], ∃ a ∈ o'.attributes, a.2 = ['}']) :=
  ⟨(file_iff _ named none).1, (file_iff _ named _).2 uncommented_named⟩

/-- A value that begins like a comment is lost, and an object that is not closed is accepted. -/
theorem not_file : (¬ ∀ objs, RoundTrips objs) ∧
    ¬ ∀ objs o key, Rejected (unfinished objs o key) := by
  constructor
  · intro h
    have hharmless := (roundTrips_iff [commented '#' text_hash]).mp (h _) _ List.mem_cons_self
    exact (hharmless.values (['c'], ['#']) List.mem_cons_self).1 rfl
  · intro h
    obtain ⟨o, ho, a, ha, hbrace⟩ := (rejected_unfinished_iff uncommented_letter).mp (h _ _ _)
    rw [List.mem_singleton.mp ho] at ha
    rw [List.mem_singleton.mp ha] at hbrace
    exact absurd hbrace (by decide)

end CentreonBroker.Ceof
