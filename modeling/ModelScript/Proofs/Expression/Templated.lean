import ModelScript.Proofs.Expression.Acceptance
import ModelScript.Proofs.Lookup.Interpolation
import ModelScript.Proofs.Reading.Location
import ModelScript.Proofs.Token.Spelling

/-!
# String templates

A string literal that is put together from parts, literal ones and expressions, is read as these
parts in order (`read_template`).  The text goes through the lexer, which takes it as one string,
then through the search for interpolations, which finds exactly the expressions
(`Interpolation.scan_parts`), and then each expression is lexed and read by itself
(`Expr.exists_yields_parts`).

The parts are told apart by their braces alone: a literal part may hold dollar signs, closing
braces and comments.
-/

namespace ModelScript

open Logged (yields_bind yields_pure)

/-! ## Parts -/

/-- A part of the text of a string. -/
inductive StringPart where
  /-- Text that stands for itself. -/
  | literal (text : List Char)
  /-- The text of an expression. -/
  | expression (text : List Char)
  deriving DecidableEq, Repr

namespace StringPart

/-- How a part is written. -/
def written : StringPart → List Char
  | literal text => text
  | expression text => '$' :: '\x7b' :: (text ++ ['\x7d'])

/-- A character that neither ends the string or its line nor escapes or opens anything. -/
abbrev IsPlain (c : Char) : Prop := c ≠ '"' ∧ c ≠ '\\' ∧ c ≠ '\n' ∧ c ≠ '\x7b'

/-- What a part is read as.  Where the text of an expression is lexed and read does not matter. -/
inductive Reads : StringPart → Expr → Prop
  | literal {text : List Char} (hne : text ≠ [])
    (hplain : ∀ c ∈ text, IsPlain c) :
    Reads (literal text) (.atom .string (String.ofList text))
  | expression {text : List Char} {file : String} {line depth n reached : Nat} {ts : List Token}
    {e : Expr} (hne : text ≠ []) (hplain : ∀ c ∈ text, IsPlain c ∧ c ≠ '\x7d')
    (hlexed : tokenize file line text = .ok ts)
    (hread : (Expr.read file depth line ts).Yields n (e, reached)) : Reads (expression text) e

/-- The text of an expression holds something, and no braces. -/
theorem Reads.ne_brace {text : List Char} {e : Expr} (h : Reads (.expression text) e) :
    text ≠ [] ∧ ∀ c ∈ text, c ≠ '\x7b' ∧ c ≠ '\x7d' := by
  cases h with
  | expression hne hplain => exact ⟨hne, fun c hc => ⟨(hplain c hc).1.2.2.2, (hplain c hc).2⟩⟩

/-- Two literal parts would be one. -/
def Alternate : StringPart → StringPart → Prop
  | literal _, literal _ => False
  | _, _ => True

end StringPart

/-- The text of a template: its parts one after the other, the first expression without its dollar
sign if it comes first and one likes. -/
inductive StringPart.Spell : List StringPart → List Char → Prop
  | marked (parts : List StringPart) : Spell parts (parts.flatMap StringPart.written)
  | bare (text : List Char) (parts : List StringPart) :
    Spell (.expression text :: parts)
      ('\x7b' :: (text ++ '\x7d' :: parts.flatMap StringPart.written))

/-! ## Finding the interpolations -/

namespace Interpolation

/-- The interpolations of parts that are written from an index on. -/
def ofParts (index : Nat) : List StringPart → List Interpolation
  | [] => []
  | .literal text :: rest => ofParts (index + text.length) rest
  | .expression text :: rest =>
    ⟨index, index + 1, index + 2 + text.length⟩ :: ofParts (index + 3 + text.length) rest

/-- The brace behind a text without braces closes the one in front of it. -/
theorem closeAfter?_append {text : List Char} (h : ∀ c ∈ text, c ≠ '\x7b' ∧ c ≠ '\x7d')
    (rest : List Char) : closeAfter? 1 (text ++ '\x7d' :: rest) = some text.length := by
  induction text with
  | nil => rfl
  | cons c text ih =>
    obtain ⟨hc, htext⟩ := List.forall_mem_cons.1 h
    rw [List.cons_append, closeAfter?_other 1 _ hc.1 hc.2, ih htext]
    rfl

/-- Nothing begins in a text without opening braces. -/
theorem scan_plain {text rest : List Char} (h : ∀ c ∈ text, c ≠ '\\' ∧ c ≠ '\x7b')
    (hrest : rest.head? ≠ some '\x7b') (index : Nat) :
    scan index false 0 (text ++ rest) = scan (index + text.length) false 0 rest := by
  induction text generalizing index with
  | nil => rfl
  | cons c text ih =>
    obtain ⟨hc, htext⟩ := List.forall_mem_cons.1 h
    have hnext : (text ++ rest).head? ≠ some '\x7b' := by
      cases text with
      | nil => exact hrest
      | cons d text => simpa using (htext d (by simp)).2
    have hnone : startingAt? index false (c :: (text ++ rest)) = none := by
      unfold startingAt?
      split
      · next h =>
        cases h
        exact absurd rfl hc.2
      · next h =>
        rw [List.cons.injEq] at h
        rw [h.2] at hnext
        exact absurd rfl hnext
      · rfl
    have hescape : (decide (c = '\\') && !false) = false := by simp [hc.1]
    rw [List.cons_append, scan, hnone]
    dsimp only
    rw [hescape, ih htext, List.length_cons, Nat.add_right_comm, Nat.add_assoc]

/-- An interpolation is passed over as a whole. -/
theorem scan_interpolation {index : Nat} {i : Interpolation} {c : Char} {inside rest : List Char}
    (h : startingAt? index false (c :: (inside ++ rest)) = some i)
    (hlen : i.closing = index + inside.length) :
    scan index false 0 (c :: (inside ++ rest))
      = i :: scan (index + 1 + inside.length) false 0 rest := by
  rw [scan, h]
  dsimp only
  rw [hlen, Nat.add_sub_cancel_left, scan_skip, List.drop_left]

/-- The interpolations found are the expressions among the parts. -/
theorem scan_parts {parts : List StringPart} {es : List Expr}
    (h : List.Forall₂ StringPart.Reads parts es) (index : Nat) :
    scan index false 0 (parts.flatMap StringPart.written) = ofParts index parts := by
  induction h generalizing index with
  | nil => rfl
  | @cons p e parts es hp hrest ih =>
    have hhead : (parts.flatMap StringPart.written).head? ≠ some '\x7b' := by
      cases hrest with
      | nil => simp
      | cons hq _ =>
        cases hq with
        | literal hne hplain =>
          obtain ⟨c, text, rfl⟩ := List.exists_cons_of_ne_nil hne
          simpa [StringPart.written] using (hplain c (by simp)).2.2.2
        | expression => simp [StringPart.written]
    rw [List.flatMap_cons]
    cases hp with
    | literal hne hplain =>
      rw [StringPart.written,
        scan_plain (fun c hc => ⟨(hplain c hc).2.1, (hplain c hc).2.2.2⟩) hhead, ih]
      rfl
    | @expression text _ _ _ _ _ _ _ hne hplain hlexed hread =>
      have hclose := closeAfter?_append
        (StringPart.Reads.expression hne hplain hlexed hread).ne_brace.2
        (parts.flatMap StringPart.written)
      have hstart : startingAt? index false
          ('$' :: ('\x7b' :: (text ++ ['\x7d']) ++ parts.flatMap StringPart.written))
          = some ⟨index, index + 1, index + 2 + text.length⟩ := by
        simp [startingAt?, hclose]
      rw [StringPart.written, List.cons_append, scan_interpolation hstart (by simp; omega), ih]
      simp [ofParts]
      congr 1
      omega

/-- Without its dollar sign the first expression is found all the same. -/
theorem scan_bare {text : List Char} {parts : List StringPart} {es : List Expr}
    (htext : ∀ c ∈ text, c ≠ '\x7b' ∧ c ≠ '\x7d') (h : List.Forall₂ StringPart.Reads parts es) :
    scan 0 false 0 ('\x7b' :: (text ++ '\x7d' :: parts.flatMap StringPart.written))
      = ⟨0, 0, text.length + 1⟩ :: ofParts (text.length + 2) parts := by
  have hclose := closeAfter?_append htext (parts.flatMap StringPart.written)
  have hshape : '\x7b' :: (text ++ '\x7d' :: parts.flatMap StringPart.written)
      = '\x7b' :: ((text ++ ['\x7d']) ++ parts.flatMap StringPart.written) := by simp
  have hstart : startingAt? 0 false
      ('\x7b' :: ((text ++ ['\x7d']) ++ parts.flatMap StringPart.written))
      = some ⟨0, 0, text.length + 1⟩ := by
    simp [startingAt?, hclose]
  rw [hshape, scan_interpolation hstart (by simp), scan_parts h]
  simp
  congr 1
  omega

theorem ofParts_ne_nil {parts : List StringPart} {text : List Char}
    (h : .expression text ∈ parts) (index : Nat) : ofParts index parts ≠ [] := by
  induction parts generalizing index with
  | nil => cases h
  | cons p parts ih =>
    cases p with
    | literal l =>
      rcases List.mem_cons.1 h with h | h
      · cases h
      · exact ih h _
    | expression s => simp [ofParts]

end Interpolation

/-! ## Reading the parts -/

namespace Expr

/-- A literal piece of a text does not depend on what stands around it. -/
theorem piece_append (before text after : List Char) :
    piece (before ++ text ++ after) before.length (before.length + text.length)
      = piece text 0 text.length := by
  unfold piece
  have htake : (before ++ text ++ after).take (before.length + text.length) = before ++ text :=
    List.take_left' (by simp)
  rw [htake, List.drop_left, List.take_length, List.drop_zero]
  simp only [Nat.lt_add_right_iff_pos]

theorem piece_self {text : List Char} (h : text ≠ []) :
    piece text 0 text.length = [.atom .string (String.ofList text)] := by
  unfold piece
  rw [if_pos (List.length_pos_iff.2 h), List.take_length, List.drop_zero]

/-- What is read in one place is read in all others, at every depth from some depth on. -/
theorem exists_yields_expression {text : List Char} {e : Expr}
    (h : StringPart.Reads (.expression text) e) :
    ∃ d, ∀ file line depth, d ≤ depth → ∃ ts n reached, tokenize file line text = .ok ts ∧
      (Expr.read file depth line ts).Yields n (e, reached) := by
  cases h with
  | @expression _ file line depth n reached ts _ _ _ hlexed hread =>
    refine ⟨depth, fun file' line' depth' hle => ?_⟩
    have hsame := Lexer.scan_alike .any file file' text (p := ⟨0, line, 1⟩) (q := ⟨0, line', 1⟩) 0
      trivial rfl
    have hlexed' : tokenize file' line' text = .ok ts := by
      unfold tokenize at hlexed ⊢
      rw [hlexed] at hsame
      generalize Lexer.scan file' ⟨0, line', 1⟩ 0 text = x at hsame ⊢
      cases hsame
      rfl
    have hcarries : (Expr.read file depth).Carries (fun _ _ => True) (Expr.read file' depth') :=
      read_carries .any file file' hle
    obtain ⟨⟨e', reached'⟩, hy, he, -⟩ :=
      (hcarries ts (trivial : (fun _ _ => True) line line')).yields hread
    cases he
    exact ⟨ts, n, reached', hlexed', hy⟩

variable {file : String} {read : ExprReader} {line : Nat}

theorem interpolated_append (before : List Char) {text after : List Char} {i : Interpolation}
    {ts : List Token} {n reached : Nat} {e : Expr} (ho : i.opening + 1 = before.length)
    (hc : i.closing = before.length + text.length) (hne : text ≠ [])
    (hlexed : tokenize file line text = .ok ts) (hread : (read line ts).Yields n (e, reached)) :
    (interpolated file read line (before ++ text ++ after) i).Yields n e := by
  have hpos := List.length_pos_iff.2 hne
  have hslice : ((before ++ text ++ after).take i.closing).drop (i.opening + 1) = text := by
    rw [ho, hc, List.take_left' (by simp), List.drop_left]
  unfold interpolated
  rw [if_neg (by omega), hslice]
  refine ((Logged.yields_tokens _ _ _ _ _).2 ⟨rfl, hlexed⟩).bind_zero ?_
  exact (yields_bind _ _ _ _).2 ⟨n, 0, _, hread, (yields_pure _ _ _).2 ⟨rfl, rfl⟩, rfl⟩

theorem yields_parts_cons {text : List Char} {start m n : Nat} {i : Interpolation}
    {is : List Interpolation} {e : Expr} {es : List Expr}
    (h : (interpolated file read line text i).Yields m e)
    (h' : (parts file read line text (i.closing + 1) is).Yields n es) :
    (parts file read line text start (i :: is)).Yields (m + n)
      (piece text start i.marker ++ e :: es) := by
  rw [parts_cons]
  exact h.bind ((yields_bind _ _ _ _).2 ⟨n, 0, _, h', (yields_pure _ _ _).2 ⟨rfl, rfl⟩, rfl⟩)

/-- The parts behind `before` are read in order; `pending` is the literal piece that the search has
passed over and that is still to be given out. -/
theorem exists_yields_parts (file : String) (line : Nat) {parts : List StringPart}
    {es : List Expr} (h : List.Forall₂ StringPart.Reads parts es) (before pending : List Char)
    {text : List Char}    (htext : text = before ++ pending ++ parts.flatMap StringPart.written)
    (hchain : (StringPart.literal pending :: parts).IsChain StringPart.Alternate ∨
      pending = [] ∧ parts.IsChain StringPart.Alternate) :
    ∃ d, ∀ depth, d ≤ depth → ∃ n,
      (Expr.parts file (Expr.read file depth) line text before.length
        (Interpolation.ofParts (before.length + pending.length) parts)).Yields n
        (piece pending 0 pending.length ++ es) := by
  induction h generalizing before pending with
  | nil =>
    refine ⟨0, fun depth _ => ⟨0, (yields_pure _ _ _).2 ⟨rfl, ?_⟩⟩⟩
    rw [List.flatMap_nil] at htext
    have hlen : text.length = before.length + pending.length := by simp [htext]
    rw [hlen, htext, piece_append, List.append_nil]
  | @cons p e parts es hp hrest ih =>
    cases p with
    | literal l =>
      -- the part becomes the one that is still to be given out
      rcases hchain with hchain | ⟨rfl, hchain⟩
      · cases hchain with
        | cons_cons h _ => exact absurd h id
      · cases hp with
        | literal hne _ =>
          have htext' : text = before ++ l ++ parts.flatMap StringPart.written := by
            simpa [StringPart.written] using htext
          obtain ⟨d, hd⟩ := ih before l htext' (Or.inl hchain)
          refine ⟨d, fun depth hle => ?_⟩
          obtain ⟨n, hy⟩ := hd depth hle
          rw [piece_self hne] at hy
          exact ⟨n, hy⟩
    | expression s =>
      obtain ⟨hne, -⟩ := hp.ne_brace
      obtain ⟨d, hd⟩ := exists_yields_expression hp
      have hchain' : parts.IsChain StringPart.Alternate := by
        rcases hchain with hchain | ⟨-, hchain⟩
        · exact hchain.of_cons.of_cons
        · exact hchain.of_cons
      obtain ⟨d', hd'⟩ := ih (before ++ pending ++ ['$', '\x7b'] ++ s ++ ['\x7d']) []
        (by simp [htext, StringPart.written]) (Or.inr ⟨rfl, hchain'⟩)
      refine ⟨max d d', fun depth hle => ?_⟩
      obtain ⟨ts, m, reached, hlexed, hread⟩ := hd file line depth (by omega)
      obtain ⟨n, hy⟩ := hd' depth (by omega)
      have hliteral : text = before ++ pending
          ++ ('$' :: '\x7b' :: (s ++ '\x7d' :: parts.flatMap StringPart.written)) := by
        simp [htext, StringPart.written]
      have hinside : text = before ++ pending ++ ['$', '\x7b'] ++ s
          ++ '\x7d' :: parts.flatMap StringPart.written := by
        simp [htext, StringPart.written]
      have hfirst : (interpolated file (Expr.read file depth) line text
          ⟨before.length + pending.length, before.length + pending.length + 1,
            before.length + pending.length + 2 + s.length⟩).Yields m e := by
        rw [hinside]
        exact interpolated_append _ (by simp; omega) (by simp; omega) hne hlexed hread
      have hlen : (before ++ pending ++ ['$', '\x7b'] ++ s ++ ['\x7d']).length
          = before.length + pending.length + 3 + s.length := by
        simp
        omega
      have hclose : before.length + pending.length + 2 + s.length + 1
          = before.length + pending.length + 3 + s.length := by omega
      rw [hlen] at hy
      rw [Interpolation.ofParts, ← piece_append before pending, ← hliteral]
      refine ⟨m + n, yields_parts_cons hfirst ?_⟩
      dsimp only
      rw [hclose]
      exact hy

/-- The parts of a text are read in order, with a dollar sign in front of the first expression or
without one. -/
theorem exists_yields_of_spell (file : String) (line : Nat) {parts : List StringPart}
    {es : List Expr} {text : List Char} (h : List.Forall₂ StringPart.Reads parts es)
    (hchain : parts.IsChain StringPart.Alternate) (hspell : StringPart.Spell parts text) :
    ∃ d, ∀ depth, d ≤ depth → ∃ n,
      (Expr.parts file (Expr.read file depth) line text 0 (Interpolation.ranges text)).Yields n
        es := by
  cases hspell with
  | marked =>
    rw [Interpolation.ranges, Interpolation.scan_parts h]
    exact exists_yields_parts file line h [] [] rfl (Or.inr ⟨rfl, hchain⟩)
  | bare s parts =>
    cases h with
    | @cons _ e _ es hp hrest =>
      obtain ⟨hne, hbraces⟩ := hp.ne_brace
      obtain ⟨d, hd⟩ := exists_yields_expression hp
      have htext : '\x7b' :: (s ++ '\x7d' :: parts.flatMap StringPart.written)
          = '\x7b' :: (s ++ ['\x7d']) ++ [] ++ parts.flatMap StringPart.written := by simp
      obtain ⟨d', hd'⟩ :=
        exists_yields_parts file line hrest _ [] htext (Or.inr ⟨rfl, hchain.of_cons⟩)
      refine ⟨max d d', fun depth hle => ?_⟩
      obtain ⟨ts, m, reached, hlexed, hread⟩ := hd file line depth (by omega)
      obtain ⟨n, hy⟩ := hd' depth (by omega)
      have hfirst : (interpolated file (Expr.read file depth) line
          ('\x7b' :: (s ++ '\x7d' :: parts.flatMap StringPart.written))
          ⟨0, 0, s.length + 1⟩).Yields m e :=
        interpolated_append ['\x7b'] rfl (Nat.add_comm _ _) hne hlexed hread
      have hlen : ('\x7b' :: (s ++ ['\x7d'])).length = s.length + 2 := by simp
      rw [hlen] at hy
      rw [Interpolation.ranges, Interpolation.scan_bare hbraces hrest]
      exact ⟨m + n, yields_parts_cons hfirst hy⟩

end Expr

/-! ## Lexing the text -/

theorem Token.isQuotable_of_forall {cs : List Char} (h : ∀ c ∈ cs, c ≠ '"' ∧ c ≠ '\\' ∧ c ≠ '\n') :
    IsQuotable cs := by
  induction cs with
  | nil => exact .nil
  | cons c cs ih =>
    obtain ⟨⟨hq, hb, hn⟩, hcs⟩ := List.forall_mem_cons.1 h
    exact .plain hq hn hb (ih hcs)

namespace StringPart

/-- A part is written with nothing that would end the string or escape anything in it. -/
theorem Reads.written_plain {p : StringPart} {e : Expr} (h : Reads p e) :
    ∀ c ∈ p.written, c ≠ '"' ∧ c ≠ '\\' ∧ c ≠ '\n' := by
  cases h with
  | literal _ hplain => exact fun c hc => ⟨(hplain c hc).1, (hplain c hc).2.1, (hplain c hc).2.2.1⟩
  | @expression text _ _ _ _ _ _ _ _ hplain =>
    have htext : ∀ c ∈ text, c ≠ '"' ∧ c ≠ '\\' ∧ c ≠ '\n' := fun c hc =>
      ⟨(hplain c hc).1.1, (hplain c hc).1.2.1, (hplain c hc).1.2.2.1⟩
    simpa [written, or_imp, forall_and] using htext

theorem Spell.isQuotable {parts : List StringPart} {es : List Expr} {text : List Char}
    (hspell : Spell parts text) (h : List.Forall₂ Reads parts es) : Token.IsQuotable text := by
  have hall {parts : List StringPart} {es : List Expr} (h : List.Forall₂ Reads parts es) :
      ∀ c ∈ parts.flatMap written, c ≠ '"' ∧ c ≠ '\\' ∧ c ≠ '\n' := by
    induction h with
    | nil => simp
    | cons hp _ ih =>
      rw [List.flatMap_cons]
      exact List.forall_mem_append.2 ⟨hp.written_plain, ih⟩
  refine Token.isQuotable_of_forall ?_
  cases hspell with
  | marked => exact hall h
  | bare s parts =>
    have hmarked := hall h
    simpa [written, or_imp, forall_and] using hmarked

/-- With an expression among the parts, there is an interpolation in the text. -/
theorem Spell.ranges_ne_nil {parts : List StringPart} {es : List Expr} {text source : List Char}
    (hspell : Spell parts text) (h : List.Forall₂ Reads parts es)
    (hmem : .expression source ∈ parts) : Interpolation.ranges text ≠ [] := by
  unfold Interpolation.ranges
  cases hspell with
  | marked =>
    rw [Interpolation.scan_parts h]
    exact Interpolation.ofParts_ne_nil hmem 0
  | bare s parts =>
    cases h with
    | cons hp hrest =>
      rw [Interpolation.scan_bare hp.ne_brace.2 hrest]
      simp

end StringPart

/-- A string that is put together from parts, not all of them literal, is lexed as one token and
read as a template of what its parts are read as, in order. -/
theorem read_template (file : String) (line : Nat) {parts : List StringPart} {es : List Expr}
    {text source : List Char} (hreads : List.Forall₂ StringPart.Reads parts es)
    (hchain : parts.IsChain StringPart.Alternate) (hmem : .expression source ∈ parts)
    (hspell : StringPart.Spell parts text) :
    tokenize file line ('"' :: text ++ ['"']) = .ok [.string (String.ofList text)] ∧
      ∃ d, ∀ depth, d ≤ depth → ∃ n,
        (Expr.read file depth line [.string (String.ofList text)]).Yields n
          (.templated es, line) := by
  have htext : (String.ofList text).toList = text := String.toList_ofList
  constructor
  · have hlexable : (Token.string (String.ofList text)).Lexable :=
      .string (by rw [htext]; exact hspell.isQuotable hreads)
    have hspelling : '"' :: text ++ ['"']
        = (Token.string (String.ofList text)).spelling ++ [] := by
      rw [Token.spelling, htext, List.append_nil]
    unfold tokenize
    rw [hspelling, Lexer.scan_spelling hlexable (.inl rfl)]
    rfl
  · obtain ⟨d, hd⟩ := Expr.exists_yields_of_spell file line hreads hchain hspell
    refine ⟨d + 1, fun depth hle => ?_⟩
    obtain ⟨depth, rfl⟩ : ∃ k, depth = k + 1 := ⟨depth - 1, by omega⟩
    obtain ⟨n, hy⟩ := hd depth (by omega)
    have hstring : (Expr.readString file (Expr.read file depth) line (String.ofList text)).Yields n
        (.templated es) := by
      have hne := hspell.ranges_ne_nil hreads hmem
      unfold Expr.readString
      rw [htext]
      split
      · next hnil => exact absurd hnil hne
      · exact (Logged.yields_map _ _ _ _).2 ⟨es, hy, rfl⟩
    refine ⟨n, ?_⟩
    show (Expr.readStep file (Expr.read file depth) line _).Yields n _
    rw [Expr.readStep_string]
    exact (yields_bind _ _ _ _).2 ⟨n, 0, _, hstring, (yields_pure _ _ _).2 ⟨rfl, rfl⟩, rfl⟩

/-- In `"{ a}} #$${ f ( 1 )}"` the text between the interpolations is `} #$`. -/
theorem read_template_call :
    let parts := [.expression " a".toList, .literal "\x7d #$".toList, .expression " f ( 1 )".toList]
    let es := [.atom .identifier "a", .atom .string "\x7d #$", .call "f" [.atom .integer "1"]]
    let text := "\x7b a\x7d\x7d #$$\x7b f ( 1 )\x7d".toList
    List.Forall₂ StringPart.Reads parts es ∧ parts.IsChain StringPart.Alternate ∧
      StringPart.Spell parts text ∧
      tokenize "main" 1 ('"' :: text ++ ['"']) = .ok [.string (String.ofList text)] ∧
      ∃ d, ∀ depth, d ≤ depth → ∃ n,
        (Expr.read "main" depth 1 [.string (String.ofList text)]).Yields n (.templated es, 1) := by
  intro parts es text
  have hname : ∀ t ∈ [Token.ident "a"], t.Lexable := by
    simp only [List.forall_mem_singleton]
    exact .ident (by decide) (by decide) (by decide) (by decide) (by decide)
  have hcall :
      ∀ t ∈ [Token.ident "f", .opening .round, .integer "1", .closing .round], t.Lexable := by
    simp only [List.forall_mem_cons]
    exact ⟨.ident (by decide) (by decide) (by decide) (by decide) (by decide), .mark _,
      .integer (by decide), .mark _, List.forall_mem_nil _⟩
  have hread : (Expr.read "main" 2 1 [.ident "a"]).Yields 0 (.atom .identifier "a", 1) := ⟨rfl, rfl⟩
  have hread' : (Expr.read "main" 2 1 [.ident "f", .opening .round, .integer "1",
      .closing .round]).Yields 0 (.call "f" [.atom .integer "1"], 1) := ⟨rfl, rfl⟩
  have hreads : List.Forall₂ StringPart.Reads parts es :=
    .cons (.expression (by decide) (by simp [StringPart.IsPlain]) (Lexer.scan_spaced hname _) hread)
    (.cons (.literal (by decide) (by simp [StringPart.IsPlain]))
    (.cons (.expression (by decide) (by simp [StringPart.IsPlain]) (Lexer.scan_spaced hcall _)
      hread') .nil))
  have hchain : parts.IsChain StringPart.Alternate :=
    .cons_cons trivial (.cons_cons trivial (.singleton _))
  have hspell : StringPart.Spell parts text := .bare " a".toList _
  have hmem : .expression " a".toList ∈ parts := List.mem_cons_self
  exact ⟨hreads, hchain, hspell, read_template "main" 1 hreads hchain hmem hspell⟩

end ModelScript
