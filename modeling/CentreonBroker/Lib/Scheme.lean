import Mathlib.Data.List.Basic

/-!
# Schemes with macros

A scheme is text in which a macro stands between two dollar signs. It is compiled in one loop, which
collects literal text and turns macros into something else; what is made of the result depends on
the symbols of the scheme only.
-/

namespace CentreonBroker.Scheme

/-- A character of the text, or a macro with its dollar signs. -/
inductive Symbol where
  | char (c : Char)
  | macroOf (name : List Char)
  deriving DecidableEq, Repr

/-- The symbols of a scheme. With `opened`, a macro has begun, and `acc` is what was read of it. -/
def symbolsFrom : Bool → List Char → List Char → List Symbol
  | _, _, [] => []
  | opened, acc, c :: s =>
    match opened with
    | true =>
      if c = '$' then .macroOf ('$' :: acc ++ ['$']) :: symbolsFrom false [] s
      else symbolsFrom true (acc ++ [c]) s
    | false => if c = '$' then symbolsFrom true [] s else .char c :: symbolsFrom false [] s

@[simp] theorem symbolsFrom_text (acc s : List Char) :
    symbolsFrom false acc s = symbolsFrom false [] s := by
  cases s <;> rfl

def symbols (scheme : List Char) : List Symbol := symbolsFrom false [] scheme

/-- Literal text, or a macro with its dollar signs. -/
inductive Chunk where
  | literal (text : List Char)
  | macroOf (name : List Char)
  deriving DecidableEq, Repr

/-- Text that was collected, when there is any. -/
def textChunks (acc : List Char) : List Chunk := if acc = [] then [] else [.literal acc]

/-- Symbols as chunks, behind text that was collected. -/
def chunksFrom : List Char → List Symbol → List Chunk
  | acc, [] => textChunks acc
  | acc, .char c :: l => chunksFrom (acc ++ [c]) l
  | acc, .macroOf name :: l => textChunks acc ++ .macroOf name :: chunksFrom [] l

def chunks (scheme : List Char) : List Chunk := chunksFrom [] (symbols scheme)

/-- Behind a dollar sign the symbols begin with a macro, or there are none. -/
theorem chunksFrom_opened (acc name s : List Char) :
    chunksFrom acc (symbolsFrom true name s) =
      textChunks acc ++ chunksFrom [] (symbolsFrom true name s) := by
  induction s generalizing name with
  | nil => exact (List.append_nil _).symm
  | cons c s ih =>
    rw [symbolsFrom]
    split
    · rfl
    · exact ih (name ++ [c])

theorem flatMap_textChunks {β : Type} {h : Chunk → List β} {f : Symbol → List β}
    (hliteral : ∀ text, h (.literal text) = text.flatMap fun c => f (.char c)) (acc : List Char) :
    (textChunks acc).flatMap h = acc.flatMap fun c => f (.char c) := by
  unfold textChunks
  split
  · rename_i hnil
    rw [hnil]
    rfl
  · rw [List.flatMap_singleton, hliteral]

theorem flatMap_chunksFrom {β : Type} {h : Chunk → List β} {f : Symbol → List β}
    (hliteral : ∀ text, h (.literal text) = text.flatMap fun c => f (.char c))
    (hname : ∀ name, h (.macroOf name) = f (.macroOf name)) (acc : List Char) (l : List Symbol) :
    (chunksFrom acc l).flatMap h = (acc.flatMap fun c => f (.char c)) ++ l.flatMap f := by
  induction l generalizing acc with
  | nil => rw [chunksFrom, flatMap_textChunks hliteral, List.flatMap_nil, List.append_nil]
  | cons x l ih =>
    cases x with
    | char c =>
      rw [chunksFrom, ih, List.flatMap_append, List.flatMap_singleton, List.flatMap_cons,
        List.append_assoc]
    | macroOf name =>
      rw [chunksFrom, List.flatMap_append, flatMap_textChunks hliteral, List.flatMap_cons, ih,
        hname, List.flatMap_cons]
      rfl

/-- What is made of the characters of literal text and of macros is made of the symbols. -/
theorem flatMap_chunks {β : Type} {h : Chunk → List β} {f : Symbol → List β}
    (hliteral : ∀ text, h (.literal text) = text.flatMap fun c => f (.char c))
    (hname : ∀ name, h (.macroOf name) = f (.macroOf name)) (scheme : List Char) :
    (chunks scheme).flatMap h = (symbols scheme).flatMap f :=
  flatMap_chunksFrom hliteral hname [] (symbols scheme)

/-- What is appended for literal text and for macros, and the error for a macro that is not
closed. -/
structure Compiler (γ ε : Type) where
  literal : List Char → γ
  macroOf : List Char → Except ε (List γ)
  unclosed : List Char → ε

section Compile

variable {γ ε : Type} (k : Compiler γ ε)

/-- What a chunk is compiled to. -/
def Compiler.entries : Chunk → List γ
  | .literal text => [k.literal text]
  | .macroOf name =>
    match k.macroOf name with
    | .ok compiled => compiled
    | .error _ => []

/-- Literal text, when it is not empty. -/
def literals (acc : List Char) : List γ := if acc = [] then [] else [k.literal acc]

/-- The loop. With `opened`, a macro has begun; `acc` is what was read of it, or the text since the
last one. -/
def compileFrom : Bool → List Char → List Char → Except ε (List γ)
  | false, acc, [] => .ok (literals k acc)
  | true, acc, [] => .error (k.unclosed ('$' :: acc))
  | opened, acc, c :: s =>
    match opened with
    | true =>
      if c = '$' then do
        let compiled ← k.macroOf ('$' :: acc ++ ['$'])
        let rest ← compileFrom false [] s
        return compiled ++ rest
      else compileFrom true (acc ++ [c]) s
    | false =>
      if c = '$' then do
        let rest ← compileFrom true [] s
        return literals k acc ++ rest
      else compileFrom false (acc ++ [c]) s

def compile (scheme : List Char) : Except ε (List γ) := compileFrom k false [] scheme

variable {k}

theorem literals_eq (acc : List Char) : literals k acc = (textChunks acc).flatMap k.entries := by
  unfold literals textChunks
  split <;> rfl

/-- What is collected, and the chunks of the rest. -/
theorem compileFrom_eq {opened : Bool} {acc s : List Char} {compiled : List γ}
    (h : compileFrom k opened acc s = .ok compiled) :
    compiled =
      (chunksFrom (if opened then [] else acc) (symbolsFrom opened acc s)).flatMap k.entries := by
  induction s generalizing opened acc compiled with
  | nil =>
    cases opened with
    | true => cases h
    | false =>
      cases h
      exact literals_eq acc
  | cons c s ih =>
    cases opened with
    | true =>
      rw [symbolsFrom, if_pos rfl]
      rw [compileFrom] at h
      split at h
      · rename_i hc
        rw [if_pos hc]
        cases hm : k.macroOf ('$' :: acc ++ ['$']) with
        | error e =>
          rw [hm] at h
          cases h
        | ok ms =>
          cases hrest : compileFrom k false [] s with
          | error e =>
            rw [hm, hrest] at h
            cases h
          | ok rest =>
            rw [hm, hrest] at h
            cases h
            rw [chunksFrom, textChunks, if_pos rfl, List.nil_append, List.flatMap_cons,
              Compiler.entries, hm]
            exact congrArg (ms ++ ·) (ih hrest)
      · rename_i hc
        rw [if_neg hc]
        exact ih h
    | false =>
      rw [symbolsFrom]
      rw [compileFrom] at h
      split at h
      · rename_i hc
        rw [if_pos hc]
        cases hrest : compileFrom k true [] s with
        | error e =>
          rw [hrest] at h
          cases h
        | ok rest =>
          rw [hrest] at h
          cases h
          rw [if_neg Bool.false_ne_true, chunksFrom_opened, List.flatMap_append, ← literals_eq,
            ih hrest]
          rfl
      · rename_i hc
        rw [if_neg hc, ih h, symbolsFrom_text]
        rfl

/-- **Compiling a scheme** is compiling its chunks. -/
theorem compile_eq {scheme : List Char} {compiled : List γ} (h : compile k scheme = .ok compiled) :
    compiled = (chunks scheme).flatMap k.entries := compileFrom_eq h

end Compile

/-! ## Splitting -/

section Split

variable {α β : Type} [BEq α] [LawfulBEq α] [BEq β] [LawfulBEq β]

theorem splitOn_append_of_not_mem {x : β} {l : List β} (h : x ∉ l) (r : List β) :
    (l ++ r).splitOn x = (r.splitOn x).modifyHead (l ++ ·) := by
  induction l with
  | nil =>
    rw [List.nil_append]
    cases r.splitOn x <;> rfl
  | cons b l ih =>
    have hne : (b == x) = false := beq_false_of_ne fun he => h (he ▸ List.mem_cons_self)
    rw [List.cons_append, List.splitOn_cons_eq_if_modifyHead, hne, if_neg Bool.false_ne_true,
      ih fun hmem => h (List.mem_cons_of_mem b hmem)]
    cases r.splitOn x <;> rfl

/-- To split what is made of symbols is to split the symbols, when only one makes the separator. -/
theorem splitOn_flatMap {f : α → List β} {a : α} {x : β} (ha : f a = [x])
    (hne : ∀ b, b ≠ a → x ∉ f b) (l : List α) :
    (l.flatMap f).splitOn x = (l.splitOn a).map (List.flatMap f) := by
  induction l with
  | nil => simp
  | cons b l ih =>
    by_cases hb : b = a
    · rw [hb, List.flatMap_cons, ha, List.singleton_append, List.splitOn_cons_eq_if_modifyHead,
        List.splitOn_cons_eq_if_modifyHead, if_pos (beq_self_eq_true x),
        if_pos (beq_self_eq_true a), ih]
      rfl
    · rw [List.flatMap_cons, splitOn_append_of_not_mem (hne b hb), ih,
        List.splitOn_cons_eq_if_modifyHead, beq_false_of_ne hb, if_neg Bool.false_ne_true]
      cases l.splitOn a <;> rfl

end Split

end CentreonBroker.Scheme
