import Otsos.Hive.Model

/-! The lexer of the hive compiler (`tools/hivec.py`). -/
namespace Otsos.Hivec

abbrev Text := List Char

instance : LawfulBEq Text := inferInstance

/-- What the compiler asks Python about characters. Unicode tables differ between versions; the
fields about NUL, the separators and letters hold of all of them. `int10` is `int(text, 10)`, `none`
being a `ValueError`. -/
structure Unicode where
  (isalnum isalpha isdigit isspace : Char → Bool)
  int10 : Text → Option Int
  repr : Char → String
  alnum_of_alpha : ∀ c, isalpha c = true → isalnum c = true
  plain : ∀ c ∈ ['\x00', '.', '/', '\\'], isalnum c = false

/-- How the compiler ends without a pack: a `HiveError` with its text, or an exception of Python. -/
inductive Exn where
  | hive (msg : String)
  | value
  | unicode
  | struct
  | index
  | key
  | endless
deriving DecidableEq

/-- The kinds of tokens; `sym` is a character that stands for itself. -/
inductive Kind where
  | sym (c : Char)
  | string
  | id
  | int
  | ipv4
  | eof
deriving DecidableEq

structure Token where
  kind : Kind
  text : Text
  (line col : Nat)
deriving DecidableEq

/-- What is left of the text, and the position in it. -/
structure Lexer where
  rest : Text
  (line col : Nat)
deriving DecidableEq

/-- The text of an error at a position. -/
def errorAt (filename : String) (line col : Nat) (msg : String) : Exn :=
  .hive (filename ++ ":" ++ toString line ++ ":" ++ toString col ++ ": " ++ msg)

namespace Lexer

variable (u : Unicode) (filename : String)

def error (l : Lexer) (msg : String) : Exn := errorAt filename l.line l.col msg

def advance (l : Lexer) : Lexer :=
  match l.rest with
  | [] => { l with col := l.col + 1 }
  | c :: rest => if c = '\n' then ⟨rest, l.line + 1, 1⟩ else ⟨rest, l.line, l.col + 1⟩

/-- Characters are taken as long as they satisfy `p`. -/
def advanceWhile (p : Char → Bool) : Text → Nat → Nat → Text × Lexer
  | [], line, col => ([], ⟨[], line, col⟩)
  | c :: rest, line, col =>
    if p c then
      let (taken, l) := if c = '\n' then advanceWhile p rest (line + 1) 1 else advanceWhile p rest line (col + 1)
      (c :: taken, l)
    else ([], ⟨c :: rest, line, col⟩)

def skipComment (l : Lexer) : Lexer := (advanceWhile (· ≠ '\n') l.rest l.line l.col).2

def isIdChar (c : Char) : Bool := u.isalnum c || c == '_' || c == '.' || c == '-'

def readId (l : Lexer) : Text × Lexer := advanceWhile (isIdChar u) l.rest l.line l.col

def readNumber (l : Lexer) : Text × Lexer :=
  let (sign, l) : Text × Lexer := if l.rest.head? = some '-' then (['-'], l.advance) else ([], l)
  let (digits, l) := advanceWhile (fun c => u.isdigit c || c == '.') l.rest l.line l.col
  (sign ++ digits, l)

/-- The character that an escape stands for. -/
def escape : Char → Option Char
  | 'n' => some '\n'
  | 'r' => some '\r'
  | 't' => some '\t'
  | '0' => some '\x00'
  | '\\' => some '\\'
  | '"' => some '"'
  | _ => none

/-- The loop of `read_string`, behind the opening quote. -/
def readStringFrom : Text → Nat → Nat → Except Exn (Text × Lexer)
  | [], line, col => .error (errorAt filename line col "unterminated string")
  | ['\\'], line, col => .error (errorAt filename line (col + 2) "bad escape \\")
  | '\\' :: esc :: rest, line, col =>
    let l := (Lexer.mk (esc :: rest) line (col + 1)).advance
    match escape esc with
    | none => .error (errorAt filename l.line l.col ("bad escape \\" ++ esc.toString))
    | some c => do
      let (out, l) ← readStringFrom rest l.line l.col
      return (c :: out, l)
  | c :: rest, line, col =>
    let l := (Lexer.mk (c :: rest) line col).advance
    if c = '"' then .ok ([], l)
    else do
      let (out, l) ← readStringFrom rest l.line l.col
      return (c :: out, l)

def readString (l : Lexer) : Except Exn (Text × Lexer) :=
  readStringFrom filename l.advance.rest l.advance.line l.advance.col

/-- The loop of `lex`; each turn takes a character at least. -/
def lexFrom : Nat → Lexer → Except Exn (List Token)
  | 0, _ => .error .endless
  | fuel + 1, l =>
    match l.rest with
    | [] => .ok [⟨.eof, [], l.line, l.col⟩]
    | c :: rest =>
      if u.isspace c then lexFrom fuel l.advance
      else if c = '#' ∨ (c = '/' ∧ rest.head? = some '/') then lexFrom fuel l.skipComment
      else if c ∈ ['{', '}', '=', '@', '[', ']', ',', '(', ')'] then
        return ⟨.sym c, [c], l.line, l.col⟩ :: (← lexFrom fuel l.advance)
      else if c = '"' then do
        let (text, next) ← l.readString filename
        return ⟨.string, text, l.line, l.col⟩ :: (← lexFrom fuel next)
      else if u.isalpha c || c == '_' then
        let (text, next) := l.readId u
        return ⟨.id, text, l.line, l.col⟩ :: (← lexFrom fuel next)
      else if u.isdigit c || (c == '-' && rest.head?.any u.isdigit) then
        let (text, next) := l.readNumber u
        return ⟨if '.' ∈ text then .ipv4 else .int, text, l.line, l.col⟩ :: (← lexFrom fuel next)
      else .error (l.error filename ("unexpected character " ++ u.repr c))

def lex (text : Text) : Except Exn (List Token) := lexFrom u filename (text.length + 1) ⟨text, 1, 1⟩

variable {u filename} {l : Lexer} {line col : Nat}

theorem advanceWhile_spec (ran : advanceWhile p text line col = (taken, next)) :
    (∀ c ∈ taken, p c = true) ∧ text = taken ++ next.rest := by
  induction text generalizing line col taken with
  | nil =>
    cases ran
    exact ⟨nofun, rfl⟩
  | cons c rest ih =>
    rw [advanceWhile] at ran
    split at ran
    · next holds =>
      generalize inner : (if c = '\n' then advanceWhile p rest (line + 1) 1
        else advanceWhile p rest line (col + 1)) = pair at ran
      obtain ⟨more, _⟩ := pair
      cases ran
      obtain ⟨all, split⟩ : (∀ c ∈ more, p c = true) ∧ rest = more ++ next.rest := by
        split at inner <;> exact ih inner
      refine ⟨fun d member => ?_, congrArg (c :: ·) split⟩
      rcases List.mem_cons.mp member with rfl | later
      · exact holds
      · exact all d later
    · cases ran
      exact ⟨nofun, rfl⟩

/-- A word of the language, as `read_id` reads it. -/
structure IsId (u : Unicode) (text : Text) : Prop where
  some_ : text ≠ []
  chars : ∀ c ∈ text, isIdChar u c = true

theorem readId_isId (first : l.rest.head? = some c) (start : (u.isalpha c || c == '_') = true) :
    IsId u (l.readId u).1 := by
  cases taken : l.readId u with
  | mk text next =>
    obtain ⟨all, _⟩ := advanceWhile_spec taken
    refine ⟨?_, all⟩
    rintro rfl
    -- the first character is one that is taken
    obtain ⟨rest, here⟩ : ∃ rest, l.rest = c :: rest := by
      cases there : l.rest with
      | nil => simp [there] at first
      | cons d rest => exact ⟨rest, by simpa [there] using first⟩
    have good : isIdChar u c = true := by
      rw [Bool.or_eq_true] at start
      rcases start with letter | low
      · simp [isIdChar, u.alnum_of_alpha c letter]
      · simp [isIdChar, low]
    rw [readId, here, advanceWhile, if_pos good] at taken
    simp at taken

theorem lexFrom_ids (ran : lexFrom u filename fuel l = .ok tokens) :
    ∀ t ∈ tokens, t.kind = .id → IsId u t.text := by
  induction fuel generalizing l tokens with
  | zero => cases ran
  | succ fuel ih =>
    -- a token of another kind in front
    have other : ∀ (kind : Kind) (text : Text) (next : Lexer), kind ≠ .id →
        (lexFrom u filename fuel next >>= fun rest =>
          pure (⟨kind, text, l.line, l.col⟩ :: rest)) = .ok tokens → ∀ t ∈ tokens, t.kind = .id → IsId u t.text := by
      intro kind text next notId read t member isId
      cases later : lexFrom u filename fuel next with
      | error e =>
        rw [later] at read
        cases read
      | ok rest =>
        rw [later] at read
        cases read
        rcases List.mem_cons.mp member with rfl | tail
        · exact absurd isId notId
        · exact ih later t tail isId
    rw [lexFrom] at ran
    split at ran
    · cases ran
      intro t member isId
      cases List.mem_singleton.mp member
      cases isId
    next c rest here =>
    split at ran
    · exact ih ran
    split at ran
    · exact ih ran
    split at ran
    · exact other _ _ _ (by simp) ran
    split at ran
    · cases read : l.readString filename with
      | error e =>
        rw [read] at ran
        cases ran
      | ok pair =>
        rw [read] at ran
        exact other _ _ _ (by simp) ran
    split at ran
    · next start =>
      intro t member isId
      cases later : lexFrom u filename fuel (l.readId u).2 with
      | error e =>
        simp only [later] at ran
        cases ran
      | ok tail =>
        simp only [later] at ran
        cases ran
        rcases List.mem_cons.mp member with rfl | after
        · exact readId_isId (by rw [here]; rfl) start
        · exact ih later t after isId
    split at ran
    · refine other _ _ _ ?_ ran
      split <;> simp
    · cases ran

end Lexer

end Otsos.Hivec
