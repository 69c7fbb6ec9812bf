import ModelScript.Build.Compile
import ModelScript.Proofs.Lookup.Projection
import ModelScript.Proofs.Lookup.Statement

/-!
# Compiling a file by look-ups

The frontend once more, with look-ups that can miss, from the characters of a file to its context.
It does what `compile` does, so it never misses: every index lies in its list, every key is in its
table, every token that is asked for its text has one, every loop ends, and the name in front of an
index is there (`compile_finds`).  What is left is a context or a fault.
-/

namespace ModelScript.Lookup

open Logged (ne_noList_tokens)
open Looking (bind_eq_of finds_of)

/-- Reads all tokens from a cursor on as statements that are nested less than `depth` levels deep,
noting their number. -/
def parse (file : String) (depth : Nat) : Looker (List Statement) := fun c => do
  let (body, c) ← (InnerLooker.atDepth file depth).statements c
  Logged.note (.parsed file body.length)
  return (body, c)

/-- Reads the text of a file as statements that are nested less than `depth` levels deep. -/
def parseSource (depth : Nat) (file : String) (source : List Char) :
    Looking (List Statement) := do
  let tokens ← tokenize file 1 source
  let (body, _) ← parse file depth (.start tokens 1)
  return body

/-- Reports too deep a nesting in the first line of a file. -/
def located (file : String) : Halt → Halt
  | .stop .tooDeep => .stop (.fault ⟨file, 1, .tooDeep⟩)
  | halt => halt

def compile [DepthLimits] (separators : Separators) (file : String) (source : List Char) :
    Looking Value :=
  let x : Looking Value := do
    let body ← parseSource depthLimit file source
    projectFile separators body
  ⟨x.events, x.outcome.mapError (located file)⟩

/-! ## The same frontend -/

theorem mirrors_parse (file : String) (depth : Nat) :
    (parse file depth).MirrorsWhole (parseWithin depth file) := by
  intro c hc
  have hstatements := (InnerLooker.mirrors_atDepth file depth).statements hc
  unfold parse parseWithin
  rw [hstatements]
  unfold Cursor.ending
  rw [Looking.of_bind, bind_assoc, bind_assoc]
  exact bind_eq_of rfl fun _ _ _ => rfl

theorem parseSource_eq (depth : Nat) (file : String) (source : List Char) :
    parseSource depth file source = Looking.of (readWithin depth file source) := by
  unfold parseSource readWithin
  refine bind_eq_of (tokenize_eq file 1 source) ?_
  rintro - tokens -
  rw [mirrors_parse file depth (Nat.zero_le _)]
  unfold Cursor.ending
  rw [Looking.of_bind, bind_assoc]
  exact bind_eq_of rfl fun _ _ _ => rfl

theorem compile_eq [DepthLimits] (separators : Separators) (file : String) (source : List Char) :
    compile separators file source = Looking.of (ModelScript.compile separators file source) := by
  have hproject : projectFile separators = fun body => pure (fileContext separators body) :=
    funext (projectFile_eq separators)
  unfold compile ModelScript.compile readFile
  rw [parseSource_eq, hproject]
  obtain ⟨events, outcome⟩ := readWithin depthLimit file source
  cases outcome with
  | ok body =>
    show Logged.mk (events ++ []) (.ok _) = Logged.mk events (.ok _)
    rw [List.append_nil]
  | error stop => cases stop <;> rfl

/-! ## No misses -/

theorem ne_noList_readWithin (depth : Nat) (file : String) (source : List Char) (k : Kind) :
    (readWithin depth file source).outcome ≠ .error (.noList k) := by
  have htokens : Logged.Meets (fun _ => True) (fun _ => True) (Reading.tokens file 1 source) :=
    ⟨fun _ => trivial, fun _ => trivial, ne_noList_tokens file 1 source⟩
  have hread : Logged.Meets (fun _ => True) (fun _ => True) (readWithin depth file source) := by
    refine htokens.bind fun tokens _ => ?_
    have hparse : Logged.Meets (fun _ => True) (fun _ => True)
        (parseWithin depth file ⟨tokens, 1⟩) :=
      (parseWithin_located depth file ⟨tokens, 1⟩).mono (fun _ _ => trivial) fun _ _ => trivial
    exact hparse.bind fun _ _ => .pure trivial
  exact hread.list k

/-- Moving the cursor to the place where a reading ends is no look-up. -/
theorem finds_ending {α ρ : Type} {E : Fault → Prop} {P : α × ρ → Prop} (c : Cursor)
    (place : ρ → Unread) {x : Reading (α × ρ)} (hx : x.Meets E P) : (c.ending place x).Finds := by
  apply finds_of
  intro k
  exact (hx.bind (Q := fun _ => True) fun _ _ => .pure trivial).list k

/-- Compiling a file gives a context or a fault. -/
theorem compile_outcome [DepthLimits] (separators : Separators) (file : String)
    (source : List Char) :
    (∃ v, (ModelScript.compile separators file source).outcome = .ok v) ∨
      ∃ f, (ModelScript.compile separators file source).outcome = .error (.fault f) := by
  have hlist := ne_noList_readWithin depthLimit file source
  unfold ModelScript.compile readFile
  dsimp only
  cases h : (readWithin depthLimit file source).outcome with
  | ok body => exact Or.inl ⟨_, rfl⟩
  | error stop =>
    cases stop with
    | fault f => exact Or.inr ⟨_, rfl⟩
    | tooDeep => exact Or.inr ⟨_, rfl⟩
    | noList k => exact absurd h (hlist k)

/-- Compiling a file gives a context or a fault, and so it does with look-ups that can miss, for
every text, name and setting.  No look-up misses in lexing a text, in reading tokens as an
expression or as statements at any depth, in reading the text of a string, or in projecting a
tree. -/
theorem compile_finds [DepthLimits] (separators : Separators) (file : String)
    (source : List Char) :
    ((∃ v, (compile separators file source).outcome = .ok v) ∨
        ∃ f, (compile separators file source).outcome = .error (.stop (.fault f))) ∧
      compile separators file source
        = Looking.of (ModelScript.compile separators file source) ∧
      (∀ line, (tokenize file line source).Finds) ∧
      (∀ depth line tokens, (parse file depth (.start tokens line)).Finds) ∧
      (∀ depth line tokens, (parseExpression file depth line tokens).Finds) ∧
      (∀ depth line raw,
        (parseStringLiteral file (parseExpression file depth) line raw).Finds) ∧
      ∀ body, (projectFile separators body).Finds := by
  refine ⟨?_, compile_eq separators file source, ?_, ?_, ?_, ?_, ?_⟩
  · rw [compile_eq]
    rcases compile_outcome separators file source with ⟨v, hv⟩ | ⟨f, hf⟩
    · refine Or.inl ⟨v, ?_⟩
      unfold Looking.of
      rw [hv]
      rfl
    · refine Or.inr ⟨f, ?_⟩
      unfold Looking.of
      rw [hf]
      rfl
  · intro line
    rw [tokenize_eq]
    exact finds_of (ne_noList_tokens file line source)
  · intro depth line tokens
    rw [mirrors_parse file depth (Nat.zero_le _)]
    exact finds_ending _ _ (parseWithin_located depth file ⟨tokens, line⟩)
  · intro depth line tokens
    rw [mirrors_parseExpression file depth]
    exact finds_of (Expr.located_of_read file depth line tokens).list
  · intro depth line raw
    rw [parseStringLiteral_eq (mirrors_parseExpression file depth)]
    have hread (line : Nat) (ts : List Token) :
        Logged.Located file ⟨ts, line⟩ (fun _ => True) (Expr.read file depth line ts) :=
      (Expr.located_of_read file depth line ts).mono (fun _ => id) fun _ _ => trivial
    exact finds_of (Expr.readString_located depth line raw [] hread).list
  · intro body
    rw [projectFile_eq]
    exact fun m h => by cases h

end ModelScript.Lookup
