import AccessDepth.Package.Render
import AccessDepth.Proofs.Literals

/-!
# AccessDepth.Proofs.TypeSpelling

The text of a type expression tells which one it is.

* `TypeTerm` — a type expression without spans and resolution: names, package-qualified names, pointers,
  slices, arrays, maps, channels and parentheses.
* `Expr.Writes` — an expression writes a type expression.
* `TypeTerm.form_inj` — the word at the beginning of a spelling and the mark after it tell the form.
* `TypeTerm.chars_append_inj` — a text begins with the spelling of one type expression at most.
* `Expr.render_identifies` — two expressions have the same text if and only if they write the same type
  expression.
-/

namespace AccessDepth

/-! ## Type expressions -/

/-- The letters of identifiers. Beyond ASCII any character is let in, so that the letters and digits of
every script are. -/
def isLetter (c : Char) : Bool := c.isAlpha || c = '_' || 128 ≤ c.toNat

def isWordChar (c : Char) : Bool := isLetter c || c.isDigit

/-- An identifier: a letter, and letters and digits after it. Keywords are let in as well. -/
@[ext]
structure Identifier where
  text : String
  begins : text.toList.head?.any isLetter
  chars : text.toList.all isWordChar

/-- An integer literal. -/
@[ext]
structure IntLiteral where
  text : String
  written : ∃ n, Literal.Written text.toList n

/-- A type expression, without the spans, types and objects that an exporter gives its parts. -/
inductive TypeTerm where
  | name (name : Identifier)
  | qualified (package name : Identifier)
  | pointer (elem : TypeTerm)
  | slice (elem : TypeTerm)
  | array (len : IntLiteral) (elem : TypeTerm)
  | map (key value : TypeTerm)
  | chan (dir : ChanDir) (elem : TypeTerm)
  | paren (inner : TypeTerm)

/-- An expression writes a type expression, whatever its spans, types and objects are. -/
inductive Expr.Writes : Expr → TypeTerm → Prop
  | name {span type object} (n : Identifier) : Writes ⟨span, type, .ident n.text object⟩ (.name n)
  | qualified {span type span' type' object sel} (p n : Identifier) : sel.name = n.text →
    Writes ⟨span, type, .selector ⟨span', type', .ident p.text object⟩ sel⟩ (.qualified p n)
  | pointer {span type x s} : Writes x s → Writes ⟨span, type, .star x⟩ (.pointer s)
  | slice {span type elt s} :
    Writes elt s → Writes ⟨span, type, .arrayType none elt⟩ (.slice s)
  | array {span type span' type' elt s} (len : IntLiteral) : Writes elt s →
    Writes ⟨span, type, .arrayType (some ⟨span', type', .basicLit .int len.text⟩) elt⟩ (.array len s)
  | map {span type key value k v} : Writes key k → Writes value v →
    Writes ⟨span, type, .mapType key value⟩ (.map k v)
  | chan {span type value s} (dir : ChanDir) :
    Writes value s → Writes ⟨span, type, .chanType dir value⟩ (.chan dir s)
  | paren {span type x s} : Writes x s → Writes ⟨span, type, .paren x⟩ (.paren s)

/-! ## Words -/

/-- No word goes on in a text. -/
def Breaks (cs : List Char) : Prop := ∀ c ∈ cs.head?, isWordChar c = false

/-- A text that may follow a type expression inside another one. -/
def Closes (cs : List Char) : Prop := ∀ c ∈ cs.head?, c = ']' ∨ c = ')'

variable {w w' r r' : List Char}

theorem breaks_cons {c : Char} (h : isWordChar c = false) : Breaks (c :: r) := by
  simpa [Breaks] using h

theorem Closes.breaks (h : Closes r) : Breaks r := by
  intro c hc
  obtain rfl | rfl := h c hc <;> decide

/-- A word ends where it has to. -/
theorem word_append_inj (hw : w.all isWordChar) (hw' : w'.all isWordChar) (hr : Breaks r)
    (hr' : Breaks r') (h : w ++ r = w' ++ r') : w = w' ∧ r = r' := by
  induction w generalizing w' with
  | nil =>
    cases w' with
    | nil => exact ⟨rfl, h⟩
    | cons c' w' =>
      have stops := hr c' (congrArg List.head? h)
      simp [stops] at hw'
  | cons c w ih =>
    cases w' with
    | nil =>
      have stops := hr' c (congrArg List.head? h.symm)
      simp [stops] at hw
    | cons c' w' =>
      obtain ⟨rfl, rest⟩ := List.cons.inj h
      rw [List.all_cons, Bool.and_eq_true] at hw hw'
      obtain ⟨rfl, rfl⟩ := ih hw.2 hw'.2 rest
      exact ⟨rfl, rfl⟩

theorem Literal.IsDigit.isWordChar {radix d : Nat} {c : Char} (h : IsDigit radix c d)
    (hr : radix ≤ 16) : isWordChar c := by
  obtain ⟨hd, hc⟩ := h
  have small : d < 16 := Nat.lt_of_lt_of_le hd hr
  obtain rfl | rfl := hc <;> interval_cases d <;> decide

theorem Literal.Digits.all_isWordChar {radix : Nat} {cs : List Char} {ds : List Nat}
    (h : Digits radix cs ds) (hr : radix ≤ 16) : cs.all isWordChar := by
  induction h with
  | last hc => simp [hc.isWordChar hr]
  | next hc _ ih => simp [hc.isWordChar hr, ih]
  | apart hc _ ih =>
    have underscore : isWordChar '_' := by decide
    simp [hc.isWordChar hr, underscore, ih]

theorem Literal.Written.all_isWordChar {cs : List Char} {n : Nat} (h : Written cs n) :
    cs.all isWordChar := by
  cases h with
  | zero => decide
  | decimal hd => exact hd.all_isWordChar (by decide)
  | @marked mark separator cs radix ds hm hs hd =>
    have marks : marks.all fun m => ('0' :: m.1).all isWordChar := by decide
    have start : ('0' :: mark).all isWordChar := List.all_eq_true.mp marks _ hm
    have middle : separator.all isWordChar := by obtain rfl | rfl := hs <;> decide
    rw [List.all_append, List.all_append, start, middle, hd.all_isWordChar (radix_le_of_mark hm)]
    rfl

theorem Literal.Written.ne_nil {cs : List Char} {n : Nat} (h : Written cs n) : cs ≠ [] := by
  cases h with
  | decimal hd => cases hd <;> simp
  | _ => simp

theorem IntLiteral.chars (l : IntLiteral) : l.text.toList.all isWordChar := by
  obtain ⟨n, written⟩ := l.written
  exact written.all_isWordChar

theorem IntLiteral.exists_cons (l : IntLiteral) : ∃ c cs, l.text.toList = c :: cs ∧ c ≠ ']' := by
  obtain ⟨n, written⟩ := l.written
  obtain ⟨c, cs, hc⟩ := List.exists_cons_of_ne_nil written.ne_nil
  refine ⟨c, cs, hc, ?_⟩
  rintro rfl
  have bracket := List.all_eq_true.mp l.chars ']' (hc ▸ List.mem_cons_self)
  exact absurd bracket (by decide)

/-! ## Spelling -/

namespace TypeTerm

def text : TypeTerm → String
  | .name n => n.text
  | .qualified p n => p.text ++ "." ++ n.text
  | .pointer s => "*" ++ s.text
  | .slice s => "[]" ++ s.text
  | .array len s => "[" ++ len.text ++ "]" ++ s.text
  | .map k v => "map[" ++ k.text ++ "]" ++ v.text
  | .chan .both s => "chan " ++ s.text
  | .chan .send s => "chan<- " ++ s.text
  | .chan .recv s => "<-chan " ++ s.text
  | .paren s => "(" ++ s.text ++ ")"

def chars (s : TypeTerm) : List Char := s.text.toList

def word : TypeTerm → List Char
  | .name n => n.text.toList
  | .qualified p _ => p.text.toList
  | .map .. => ['m', 'a', 'p']
  | .chan .both _ | .chan .send _ => ['c', 'h', 'a', 'n']
  | .pointer _ | .slice _ | .array .. | .chan .recv _ | .paren _ => []

def afterWord : TypeTerm → List Char
  | .name _ => []
  | .qualified _ n => '.' :: n.text.toList
  | .pointer s => '*' :: s.chars
  | .slice s => '[' :: ']' :: s.chars
  | .array len s => '[' :: (len.text.toList ++ ']' :: s.chars)
  | .map k v => '[' :: (k.chars ++ ']' :: v.chars)
  | .chan .both s => ' ' :: s.chars
  | .chan .send s => '<' :: '-' :: ' ' :: s.chars
  | .chan .recv s => '<' :: '-' :: 'c' :: 'h' :: 'a' :: 'n' :: ' ' :: s.chars
  | .paren s => '(' :: (s.chars ++ [')'])

/-- The forms of type expressions. -/
inductive Form where
  | name | qualified | pointer | slice | array | map | chan (dir : ChanDir) | paren

def form : TypeTerm → Form
  | .name _ => .name
  | .qualified .. => .qualified
  | .pointer _ => .pointer
  | .slice _ => .slice
  | .array .. => .array
  | .map .. => .map
  | .chan dir _ => .chan dir
  | .paren _ => .paren

/-- The form of a text by the word at its beginning and what follows it. -/
def formOf (word : List Char) : List Char → Form
  | '.' :: _ => .qualified
  | '*' :: _ => .pointer
  | '[' :: cs => if word ≠ [] then .map else if cs.head? = some ']' then .slice else .array
  | ' ' :: _ => .chan .both
  | '<' :: _ => if word = [] then .chan .recv else .chan .send
  | '(' :: _ => .paren
  | _ => .name

theorem chars_eq (s : TypeTerm) : s.chars = s.word ++ s.afterWord := by
  fun_cases text s <;> simp [chars, text, word, afterWord]

variable {s t : TypeTerm}

theorem all_isWordChar_word : ∀ (s : TypeTerm), s.word.all isWordChar
  | .name n => n.chars
  | .qualified p _ => p.chars
  | .pointer _ | .slice _ | .array .. | .map .. | .chan .both _ | .chan .send _ | .chan .recv _
  | .paren _ => rfl

theorem breaks_afterWord (h : Closes r) : ∀ (s : TypeTerm), Breaks (s.afterWord ++ r)
  | .name _ => h.breaks
  | .qualified .. | .pointer _ | .slice _ | .array .. | .map .. | .chan .both _ | .chan .send _
  | .chan .recv _ | .paren _ => breaks_cons (by decide)

theorem formOf_afterWord (h : Closes r) : formOf s.word (s.afterWord ++ r) = s.form := by
  cases s with
  | name n =>
    change formOf _ r = .name
    cases r with
    | nil => rfl
    | cons c r => obtain rfl | rfl := h c rfl <;> rfl
  | array len s =>
    obtain ⟨c, cs, hc, unlike⟩ := len.exists_cons
    simp [formOf, form, word, afterWord, hc, unlike]
  | chan dir s => cases dir <;> rfl
  | _ => rfl

/-- Two spellings at the beginning of one text have one form, and begin with the same word. -/
theorem form_inj (hr : Closes r) (hr' : Closes r') (h : s.chars ++ r = t.chars ++ r') :
    s.form = t.form ∧ s.word = t.word ∧ s.afterWord ++ r = t.afterWord ++ r' := by
  rw [chars_eq, chars_eq, List.append_assoc, List.append_assoc] at h
  have same := word_append_inj s.all_isWordChar_word t.all_isWordChar_word (breaks_afterWord hr s)
    (breaks_afterWord hr' t) h
  refine ⟨?_, same⟩
  rw [← formOf_afterWord hr, ← formOf_afterWord hr', same.1, same.2]

/-- A text begins with the spelling of one type expression at most, if nothing follows it or a closing
bracket. -/
theorem chars_append_inj (hr : Closes r) (hr' : Closes r') (h : s.chars ++ r = t.chars ++ r') :
    s = t ∧ r = r' := by
  induction s generalizing t r r' with
  | name n =>
    obtain ⟨form, sameWord, after⟩ := form_inj hr hr' h
    cases t with
    | name n' => exact ⟨congrArg name (Identifier.ext (String.toList_inj.mp sameWord)), after⟩
    | _ => cases form
  | qualified p n =>
    obtain ⟨form, sameWord, after⟩ := form_inj hr hr' h
    cases t with
    | qualified p' n' =>
      obtain rfl : p = p' := Identifier.ext (String.toList_inj.mp sameWord)
      obtain ⟨same, rest⟩ := word_append_inj n.chars n'.chars hr.breaks hr'.breaks
        (List.cons.inj after).2
      exact ⟨congrArg _ (Identifier.ext (String.toList_inj.mp same)), rest⟩
    | _ => cases form
  | pointer s ih =>
    obtain ⟨form, -, after⟩ := form_inj hr hr' h
    cases t with
    | pointer t =>
      obtain ⟨rfl, rest⟩ := ih hr hr' (List.cons.inj after).2
      exact ⟨rfl, rest⟩
    | _ => cases form
  | slice s ih =>
    obtain ⟨form, -, after⟩ := form_inj hr hr' h
    cases t with
    | slice t =>
      obtain ⟨rfl, rest⟩ := ih hr hr' (by simpa [afterWord] using after)
      exact ⟨rfl, rest⟩
    | _ => cases form
  | array len s ih =>
    obtain ⟨form, -, after⟩ := form_inj hr hr' h
    cases t with
    | array len' t =>
      have text : len.text.toList ++ ']' :: (s.chars ++ r) =
          len'.text.toList ++ ']' :: (t.chars ++ r') := by
        simpa [afterWord] using after
      obtain ⟨same, elements⟩ := word_append_inj len.chars len'.chars
        (breaks_cons (by decide)) (breaks_cons (by decide)) text
      obtain rfl : len = len' := IntLiteral.ext (String.toList_inj.mp same)
      obtain ⟨rfl, rest⟩ := ih hr hr' (List.cons.inj elements).2
      exact ⟨rfl, rest⟩
    | _ => cases form
  | map k v ihk ihv =>
    obtain ⟨form, -, after⟩ := form_inj hr hr' h
    cases t with
    | map k' v' =>
      have text : k.chars ++ ']' :: (v.chars ++ r) = k'.chars ++ ']' :: (v'.chars ++ r') := by
        simpa [afterWord] using after
      obtain ⟨rfl, values⟩ := ihk (by simp [Closes]) (by simp [Closes]) text
      obtain ⟨rfl, rest⟩ := ihv hr hr' (List.cons.inj values).2
      exact ⟨rfl, rest⟩
    | _ => cases form
  | chan dir s ih =>
    obtain ⟨form, -, after⟩ := form_inj hr hr' h
    cases t with
    | chan dir' t =>
      cases form
      obtain ⟨rfl, rest⟩ := ih hr hr' (by cases dir <;> simpa [afterWord] using after)
      exact ⟨rfl, rest⟩
    | _ => cases form
  | paren s ih =>
    obtain ⟨form, -, after⟩ := form_inj hr hr' h
    cases t with
    | paren t =>
      have text : s.chars ++ ')' :: r = t.chars ++ ')' :: r' := by
        simpa [afterWord] using after
      obtain ⟨rfl, rest⟩ := ih (by simp [Closes]) (by simp [Closes]) text
      exact ⟨rfl, (List.cons.inj rest).2⟩
    | _ => cases form

end TypeTerm

/-! ## Texts -/

variable {a b : Expr} {s t : TypeTerm}

theorem Expr.Writes.render_eq (h : a.Writes s) (types : TypeTable) : a.render types = s.text := by
  induction h with
  | name => rfl
  | qualified p n hn => simp [Expr.render, ExprNode.render, TypeTerm.text, hn]
  | pointer _ ih | slice _ ih | array _ _ ih | paren _ ih =>
    simp [Expr.render, ExprNode.render, TypeTerm.text, ih]
  | map _ _ ihk ihv => simp [Expr.render, ExprNode.render, TypeTerm.text, ihk, ihv]
  | chan dir _ ih => cases dir <;> simp [Expr.render, ExprNode.render, TypeTerm.text, ih]

/-- Two expressions have the same text if and only if they write the same type expression: they are the
same but for their spans, types and objects. Their type tables have no part in it. -/
theorem Expr.render_identifies (ha : a.Writes s) (hb : b.Writes t) (types types' : TypeTable) :
    a.render types = b.render types' ↔ s = t := by
  rw [ha.render_eq, hb.render_eq]
  constructor
  · intro same
    have closes : Closes [] := by simp [Closes]
    have begins : s.chars ++ [] = t.chars ++ [] := by rw [TypeTerm.chars, same, TypeTerm.chars]
    exact (TypeTerm.chars_append_inj closes closes begins).1
  · rintro rfl
    rfl

def Identifier.sample : Identifier where
  text := "T"
  begins := by decide
  chars := by decide

/-- A channel of channels of values of a type `T`. -/
def Expr.sampleChannels (outer inner : ChanDir) (span : Span) (type : Option TypeRef)
    (object : Option ObjectRef) : Expr :=
  ⟨span, type, .chanType outer ⟨span, none, .chanType inner ⟨span, type, .ident "T" object⟩⟩⟩

theorem Expr.sampleChannels_writes (outer inner : ChanDir) (span : Span) (type : Option TypeRef)
    (object : Option ObjectRef) : (sampleChannels outer inner span type object).Writes
      (.chan outer (.chan inner (.name .sample))) :=
  .chan outer (.chan inner (.name .sample))

/-- `chan <-chan T` has one text at two places, with and without resolution, and `chan<- chan T` has
another one. -/
theorem Expr.render_sample_identifies :
    (sampleChannels .both .recv ⟨1, 1, 1, 14⟩ (some 0) (some 1)).Writes
        (.chan .both (.chan .recv (.name .sample))) ∧
      (sampleChannels .both .recv ⟨7, 3, 7, 16⟩ none none).Writes
        (.chan .both (.chan .recv (.name .sample))) ∧
      (sampleChannels .send .both ⟨1, 1, 1, 14⟩ (some 0) (some 1)).Writes
        (.chan .send (.chan .both (.name .sample))) ∧
      (sampleChannels .both .recv ⟨1, 1, 1, 14⟩ (some 0) (some 1)).render ⟨#[⟨"T", none, .slice 0⟩]⟩ =
        (sampleChannels .both .recv ⟨7, 3, 7, 16⟩ none none).render .empty ∧
      (sampleChannels .both .recv ⟨7, 3, 7, 16⟩ none none).render .empty ≠
        (sampleChannels .send .both ⟨1, 1, 1, 14⟩ (some 0) (some 1)).render .empty := by
  have resolved := sampleChannels_writes .both .recv ⟨1, 1, 1, 14⟩ (some 0) (some 1)
  have bare := sampleChannels_writes .both .recv ⟨7, 3, 7, 16⟩ none none
  have other := sampleChannels_writes .send .both ⟨1, 1, 1, 14⟩ (some 0) (some 1)
  refine ⟨resolved, bare, other, (render_identifies resolved bare _ _).mpr rfl, fun same => ?_⟩
  cases (render_identifies bare other _ _).mp same

end AccessDepth
