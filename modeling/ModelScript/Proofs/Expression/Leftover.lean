import ModelScript.Proofs.Expression.Location

/-!
# What is left over behind a construct

An expression takes all its tokens.  When one is left over, there is a whole construct in front of
it, with line breaks between them: `Remains file u head breaks first last` says that behind the
construct `head`, somewhere in `u` or in a string of it, `first` is the first token that is no line
break, and stands in the line `last`.

What the fault names is told by the construct (`leftover_of_read`).  Behind brackets it is that
token, in its line.  Behind a single token, whatever follows at once is named in the line of the
single token: a line break, if one is there.
-/

namespace ModelScript

open Token (Blank Trimmed enclose)
open Logged (yields_bind yields_pure Located)

/-! ## Leftovers -/

/-- Behind the whole construct `head` and some line breaks, `first` is left over in the line
`last`. -/
inductive Remains (file : String) :
    Unread → List Token → List Token → Token → Nat → Prop
  | behind {u : Unread} (before after : List Token) {head breaks : List Token} {first : Token}
    (hu : u.tokens = before ++ (head ++ (breaks ++ first :: after))) (hw : Whole head)
    (hb : Blank breaks) (hf : first ≠ .newline) :
    Remains file u head breaks first (u.line + Token.newlines (before ++ (head ++ breaks)))
  /-- Among the tokens of an interpolation, which begin in the line of the string. -/
  | inString {u : Unread} (before after : List Token) {head breaks ts : List Token} {raw : String}
    {i : Interpolation} {first : Token} {last : Nat}
    (hu : u.tokens = before ++ .string raw :: after)
    (hi : i ∈ Interpolation.ranges raw.toList)
    (hts : tokenize file (u.line + Token.newlines before)
      ((raw.toList.take i.closing).drop (i.opening + 1)) = .ok ts)
    (h : Remains file ⟨ts, u.line + Token.newlines before⟩ head breaks first last) :
    Remains file u head breaks first last

/-- What is left over behind the construct that stands in front. -/
theorem Remains.front (file : String) (line : Nat) {head breaks : List Token} {first : Token}
    (after : List Token) (hw : Whole head) (hb : Blank breaks) (hf : first ≠ .newline) :
    Remains file ⟨head ++ (breaks ++ first :: after), line⟩ head breaks first
      (line + Token.newlines head + breaks.length) := by
  have h : Remains file ⟨head ++ (breaks ++ first :: after), line⟩ head breaks first _ :=
    .behind [] after rfl hw hb hf
  rwa [List.nil_append, Token.newlines_append, hb.newlines_eq, ← Nat.add_assoc] at h

theorem Remains.of_holds {file : String} {u v : Unread} {head breaks : List Token} {first : Token}
    {last : Nat} (hv : u.Holds v) (h : Remains file v head breaks first last) :
    Remains file u head breaks first last := by
  obtain ⟨front, rear, hu, hline⟩ := hv
  cases h with
  | @behind _ before after _ _ _ hv hw hb hf =>
    have hu : u.tokens = front ++ before ++ (head ++ (breaks ++ first :: (after ++ rear))) := by
      rw [hu, hv]
      simp
    have h : Remains file u _ _ _ _ := .behind (front ++ before) (after ++ rear) hu hw hb hf
    rwa [List.append_assoc, Token.newlines_append, ← Nat.add_assoc, ← hline] at h
  | @inString _ before after _ _ ts raw i _ _ hv hi hts h =>
    have hplace : u.line + Token.newlines (front ++ before) = v.line + Token.newlines before := by
      rw [Token.newlines_append, hline, Nat.add_assoc]
    rw [← hplace] at hts h
    exact .inString (front ++ before) (after ++ rear) (by rw [hu, hv]; simp) hi hts h

/-- How a fault names the token that is left over in `u`, if it is about one: as what it is and
where it stands, unless line breaks separate it from a single token. -/
def Fault.Names (f : Fault) (file : String) (u : Unread) : Prop :=
  ∀ t, f.problem = .leftover t → f.file = file ∧ ∃ head breaks first last,
    Remains file u head breaks first last ∧
      ((breaks = [] ∨ ∀ a, head ≠ [a]) → t = first ∧ f.line = last) ∧
      (breaks ≠ [] → (∃ a, head = [a]) → t = .newline ∧ f.line + breaks.length = last)

theorem Fault.Names.of_holds {f : Fault} {file : String} {u v : Unread} (hv : u.Holds v)
    (h : f.Names file v) : f.Names file u := by
  intro t ht
  obtain ⟨hfile, head, breaks, first, last, hr, hnames⟩ := h t ht
  exact ⟨hfile, head, breaks, first, last, hr.of_holds hv, hnames⟩

/-- Every fault that stops the reading names what is left over in `u`, if it is about that. -/
def Reading.Names {α : Type} (file : String) (u : Unread) (x : Reading α) : Prop :=
  ∀ f, x.Faults f → f.Names file u

namespace Reading.Names

variable {α β : Type} {file : String} {u v : Unread}

theorem pure (a : α) : Names file u (Pure.pure a : Reading α) :=
  fun _ h => absurd h (Logged.not_faults_pure _ _)

theorem fault {line : Nat} {p : Problem} (h : ∀ t, p ≠ .leftover t) :
    Names file u (Reading.fault file line p : Reading α) := by
  intro f hf t ht
  obtain rfl := (Logged.faults_fault _ _ _ _).1 hf
  exact absurd ht (h t)

theorem bind {x : Reading α} {g : α → Reading β} (h : Names file u x)
    (hg : ∀ n a, x.Yields n a → Names file u (g a)) : Names file u (x >>= g) := by
  intro f hf
  rcases (Logged.faults_bind _ _ _).1 hf with hx | ⟨n, a, ha, hga⟩
  · exact h f hx
  · exact hg n a ha f hga

theorem within {x : Reading α} (hv : u.Holds v) (h : Names file v x) : Names file u x :=
  fun f hf => (h f hf).of_holds hv

end Reading.Names

namespace Expr

variable {file : String} {read : ExprReader}

/-- What is known of the reader for the expressions inside: its faults name what is left over, and
it says how far it has come. -/
structure NamesLeftovers (file : String) (read : ExprReader) : Prop where
  names : ∀ (line : Nat) (ts : List Token), (read line ts).Names file ⟨ts, line⟩
  located : ∀ (line : Nat) (ts : List Token), Located file ⟨ts, line⟩
    (Between (line + Token.leadingNewlines ts) (line + Token.newlines (Token.trimEnd ts)))
    (read line ts)

section

variable (hr : NamesLeftovers file read)
include hr

/-! ## Lists -/

theorem elements_names (line : Nat) (segments : List (List Token)) :
    (elements read line segments).Names file
      ⟨List.intercalate [.mark .comma] segments, line⟩ := by
  induction segments generalizing line with
  | nil => exact .pure _
  | cons ts rest ih =>
    unfold elements
    have hhead := (hr.names line ts).within (Unread.holds_intercalate_head ts rest line)
    have htail := (ih _).within (Unread.holds_intercalate_tail ts rest line)
    exact hhead.bind fun _ _ _ => htail.bind fun _ _ _ => .pure _

theorem readList_names (line : Nat) {b : Bracket} {before inner : List Token}
    (hb : ∀ a ∈ before, a ≠ .opening b) (hc : Scope.Closes b inner) (tail : List Token) :
    (readList file read (.mark (.opening b)) (.mark (.closing b)) line
      (before ++ enclose b inner ++ tail)).Names file
        ⟨before ++ enclose b inner ++ tail, line⟩ := by
  rw [readList_eq hb hc]
  split
  · exact .pure _
  · split
    · exact fun f hf => absurd hf (not_faults_onlyElement _ _ _ f)
    · refine (elements_names hr _ _).within ?_
      rw [Scope.intercalate_segments]
      exact Unread.holds_enclose b before inner tail line

/-! ## Operators -/

/-- The right operand begins in the line of its operator. -/
theorem operation?_names (line : Nat) {head : List Token} (hw : Whole head) (tail : List Token) :
    (operation? read head.length line (head ++ tail)).Names file ⟨head ++ tail, line⟩ := by
  unfold operation?
  cases hs : split? head.length (head ++ tail) with
  | none => exact .pure _
  | some s =>
    obtain ⟨breaks, hb, rfl, -, hleft, hn⟩ := (split?_eq_some_iff head _ s).1 hs
    rw [hw.trimmed.trimEnd_eq] at hleft
    have hhead : Unread.Holds ⟨head ++ (breaks ++ .operator s.operator :: s.right), line⟩
        ⟨head, line⟩ := ⟨[], _, rfl, rfl⟩
    have hright : Unread.Holds ⟨head ++ (breaks ++ .operator s.operator :: s.right), line⟩
        ⟨s.right, line + s.newlines⟩ := by
      refine ⟨head ++ breaks ++ [.operator s.operator], [], by simp, ?_⟩
      rw [hn, Token.newlines_append, Token.newlines_append, hb.newlines_eq]
      rfl
    dsimp only
    rw [hleft]
    refine ((hr.names line head).within hhead).bind fun _ p hp => ?_
    obtain ⟨-, hreached⟩ := (hr.located line head).result hp
    rw [hw.trimmed.trimEnd_eq] at hreached
    have hline : max p.2 (line + s.newlines) = line + s.newlines := Nat.max_eq_right (by omega)
    rw [hline]
    exact ((hr.names _ s.right).within hright).bind fun _ _ _ => .pure _

/-- Behind brackets, the first token that is no line break is named. -/
theorem orOperation_names (line : Nat) {head tail : List Token} (hw : Whole head)
    (hone : ∀ a, head ≠ [a]) {alone : Reading (Expr × Nat)}
    (ha : alone.Names file ⟨head ++ tail, line⟩) :
    (orOperation file read head.length line (head ++ tail) alone).Names file
      ⟨head ++ tail, line⟩ := by
  unfold orOperation
  refine (operation?_names hr line hw tail).bind fun _ r _ => ?_
  cases r with
  | some p => exact .pure _
  | none =>
    refine Reading.Names.bind ?_ fun _ _ _ => ha
    unfold requireEnd
    rw [List.drop_left, List.take_left]
    obtain ⟨breaks, hb, htail, hlen, hfirst⟩ := Token.exists_eq_trimStart tail
    split
    · exact .pure _
    · next first after hafter =>
      rw [hafter] at htail hfirst
      intro f hf t ht
      obtain rfl := (Logged.faults_fault _ _ _ _).1 hf
      cases ht
      have hne : first ≠ .newline := fun h => hfirst (by rw [h]; rfl)
      have hremains := Remains.front file line after hw hb hne
      rw [← htail, hlen] at hremains
      exact ⟨rfl, head, breaks, first, _, hremains, fun _ => ⟨rfl, rfl⟩,
        fun _ ⟨a, ha⟩ => absurd ha (hone a)⟩

/-! ## Brackets -/

omit hr in
/-- A bracket that is not closed stops the reading for another reason. -/
theorem unmatched_names {α β : Type} (u : Unread) (line : Nat) (b : Bracket) (g : α → Reading β) :
    ((Reading.fault file line (.unmatched b) : Reading α) >>= g).Names file u :=
  (Reading.Names.fault (by simp)).bind fun _ _ h => absurd h (Logged.not_yields_fault _ _ _ _ _)

theorem readGrouped_names (line : Nat) (rest : List Token) :
    (readGrouped file read line (.opening .round :: rest)).Names file
      ⟨.opening .round :: rest, line⟩ := by
  by_cases hc : ∃ inner tail, rest = inner ++ .closing .round :: tail ∧ Scope.Closes .round inner
  · obtain ⟨inner, tail, rfl, hc⟩ := hc
    rw [← Token.enclose_append, readGrouped_eq file read line hc]
    have hinner : Unread.Holds ⟨enclose .round inner ++ tail, line⟩ ⟨inner, line⟩ :=
      Unread.holds_enclose .round [] inner tail line
    split
    · exact .fault (by simp)
    · next hi =>
      rw [Option.isNone_iff_eq_none, Construct.significant?_eq_none_iff] at hi
      refine orOperation_names hr line (.grouped hc hi) (by simp [enclose]) ?_
      exact ((hr.names line inner).within hinner).bind fun _ _ _ => .pure _
  · have hopen := bracketed_of_not_closed file line [] (by simp) hc
    unfold readGrouped
    rw [← List.nil_append (.opening .round :: rest), hopen]
    exact unmatched_names _ _ .round _

theorem readListing_names (line : Nat) {b : Bracket} (build : List Expr → Expr)
    (before rest : List Token) (hb : ∀ a ∈ before, a ≠ .opening b)
    (hw : ∀ {inner}, Scope.Closes b inner → Whole (before ++ enclose b inner)) :
    (readListing file read b build line (before ++ .opening b :: rest)).Names file
      ⟨before ++ .opening b :: rest, line⟩ := by
  by_cases hc : ∃ inner tail, rest = inner ++ .closing b :: tail ∧ Scope.Closes b inner
  · obtain ⟨inner, tail, rfl, hc⟩ := hc
    rw [← Token.enclose_append, ← List.append_assoc, readListing_eq file read line build _ hb hc]
    refine orOperation_names hr line (hw hc) (fun a ha => ?_) ?_
    · have hlen := congrArg List.length ha
      rw [length_append_enclose, List.length_singleton] at hlen
      omega
    · exact (readList_names hr line hb hc tail).bind fun _ _ _ => .pure _
  · unfold readListing
    rw [bracketed_of_not_closed file line before hb hc]
    exact unmatched_names _ _ b _

theorem readAccess_names (line : Nat) (name : String) {breaks : List Token} (rest : List Token)
    (hb : Blank breaks) :
    (readAccess file read name line (.ident name :: breaks ++ .opening .square :: rest)).Names file
      ⟨.ident name :: breaks ++ .opening .square :: rest, line⟩ := by
  by_cases hc : ∃ inner tail, rest = inner ++ .closing .square :: tail ∧ Scope.Closes .square inner
  · obtain ⟨inner, tail, rfl, hc⟩ := hc
    rw [← Token.enclose_append, ← List.append_assoc, readAccess_eq file read line name hb hc]
    refine orOperation_names hr line (.access name hb hc) (by simp [enclose]) ?_
    have hshape : .ident name :: breaks ++ enclose .square inner ++ tail
        = .ident name :: breaks ++ [.opening .square] ++ (inner ++ .closing .square :: tail) := by
      simp [enclose]
    have htake : (.ident name :: breaks ++ enclose .square inner ++ tail).take
        ((Token.ident name :: breaks).length + 1)
          = .ident name :: breaks ++ [.opening .square] := by
      rw [hshape, List.take_left' (by simp)]
    have hindex := (Unread.holds_enclose .square (.ident name :: breaks) inner tail line).trans
      (Unread.holds_trim inner _)
    rw [htake]
    dsimp only
    split
    · exact .fault (by simp)
    · exact ((hr.names _ _).within hindex).bind fun _ _ _ => .pure _
  · unfold readAccess
    rw [bracketed_of_not_closed file line _ (hb.ident_ne_opening name .square) hc]
    exact unmatched_names _ _ .square _

/-! ## Prefixes, strings and atoms -/

theorem readPrefixed_names (line : Nat) {t : Token} (ht : t ≠ .newline) (op : String)
    (rest : List Token) :
    (readPrefixed file read op line (t :: rest)).Names file ⟨t :: rest, line⟩ := by
  cases rest with
  | nil => exact .fault (by simp)
  | cons t' rest =>
    have hrest : Unread.Holds ⟨t :: t' :: rest, line⟩ ⟨t' :: rest, line⟩ :=
      ⟨[t], [], by simp, by rw [Token.newlines_cons_of_ne ht]; rfl⟩
    exact ((hr.names line _).within hrest).bind fun _ _ _ => .pure _

/-- What is left over in an interpolation is left over in the string. -/
theorem interpolated_names (line : Nat) (raw : String) {i : Interpolation}
    (hi : i ∈ Interpolation.ranges raw.toList) (rest : List Token) :
    (interpolated file read line raw.toList i).Names file ⟨.string raw :: rest, line⟩ := by
  unfold interpolated
  split
  · exact .fault (by simp)
  · refine Reading.Names.bind ?_ fun _ ts hts => ?_
    · intro f hf t ht
      obtain ⟨-, ⟨c, column, hp⟩, -⟩ := Lexer.fault_of_scan ((Logged.faults_tokens _ _ _ _).1 hf)
      rw [hp] at ht
      cases ht
    · obtain ⟨-, hts⟩ := (Logged.yields_tokens _ _ _ _ _).1 hts
      refine Reading.Names.bind ?_ fun _ _ _ => .pure _
      intro f hf t ht
      obtain ⟨hfile, head, breaks, first, last, hremains, hnames⟩ := hr.names line ts f hf t ht
      exact ⟨hfile, head, breaks, first, last, .inString [] rest rfl hi hts hremains, hnames⟩

theorem readString_names (line : Nat) (raw : String) (rest : List Token) :
    (readString file read line raw).Names file ⟨.string raw :: rest, line⟩ := by
  unfold readString
  split
  · exact .pure _
  · rw [map_eq_pure_bind]
    refine Reading.Names.bind (fun f hf => ?_) fun _ _ _ => .pure _
    obtain ⟨i, hi, hfault⟩ := exists_of_parts_faults hf
    exact interpolated_names hr line raw hi rest f hfault

/-- Behind a single token, whatever follows at once is named, in the line of the single token. -/
theorem readAtom_names (line : Nat) {t : Token} {kind : Atom} {text : String} {rest : List Token}
    (ha : t.atom? = some (kind, text)) (ht : Trimmed (t :: rest)) :
    (readAtom file read kind text line (t :: rest)).Names file ⟨t :: rest, line⟩ := by
  have hw : Whole [t] := .atom ha
  unfold readAtom
  refine Reading.Names.bind (operation?_names hr line hw rest) fun _ r _ => ?_
  cases r with
  | some p => exact .pure _
  | none =>
    dsimp only
    split
    · next t' rest' heq =>
      cases heq
      intro f hf u hu
      obtain rfl := (Logged.faults_fault _ _ _ _).1 hf
      cases hu
      obtain ⟨breaks, hb, he, -, hfirst⟩ := Token.exists_eq_trimStart (t' :: rest')
      have hblank := Trimmed.not_blank_tail [t] ht (List.cons_ne_nil t' rest')
      rw [← Token.trimStart_eq_nil_iff] at hblank
      obtain ⟨first, after, hafter⟩ := List.exists_cons_of_ne_nil hblank
      rw [hafter] at he hfirst
      have hne : first ≠ .newline := fun h => hfirst (by rw [h]; rfl)
      have hremains := Remains.front file line after hw hb hne
      rw [← he, Token.newlines_cons_of_ne (Token.ne_newline_of_atom? ha), Token.newlines_nil,
        Nat.add_zero] at hremains
      refine ⟨rfl, [t], breaks, first, _, hremains, fun h => ?_, fun hne _ => ⟨?_, rfl⟩⟩
      · obtain rfl := h.resolve_right fun h => h t rfl
        exact ⟨(List.cons.inj he).1, rfl⟩
      · obtain ⟨b, bs, rfl⟩ := List.exists_cons_of_ne_nil hne
        obtain ⟨rfl, -⟩ := (Token.blank_cons _ _).1 hb
        exact (List.cons.inj he).1
    · split
      · obtain rfl := Token.eq_string_of_atom? ha
        exact (readString_names hr line _ rest).bind fun _ _ _ => .pure _
      · exact .pure _

theorem readConstruct_names (line : Nat) {ts : List Token} {c : Construct}
    (h : Construct.Leads ts c) (ht : Trimmed ts) :
    (readConstruct file read line ts c).Names file ⟨ts, line⟩ := by
  cases h with
  | parentheses rest => exact readGrouped_names hr line rest
  | prefixed rest h =>
    refine readPrefixed_names hr line ?_ _ rest
    rintro rfl
    cases h
  | list rest => exact readListing_names hr line _ [] rest (by simp) .list
  | call name rest h =>
    exact readListing_names hr line _ _ rest (h.ident_ne_opening name .round) (.call name h)
  | access name rest h => exact readAccess_names hr line name rest h
  | atom rest h => exact readAtom_names hr line h ht

end

/-! ## Levels -/

theorem namesLeftovers_read (file : String) (depth : Nat) :
    NamesLeftovers file (Expr.read file depth) := by
  refine ⟨fun line ts => ?_, located_of_read file depth⟩
  induction depth generalizing line ts with
  | zero =>
    intro f hf
    cases hf
  | succ depth ih =>
    obtain ⟨_, _, -, -, -, ht⟩ := Token.exists_eq_trim ts
    show Reading.Names file _ (readStep file (Expr.read file depth) line ts)
    rw [readStep_trim]
    refine Reading.Names.within (Unread.holds_trim ts line) ?_
    cases hc : Construct.of? (Token.trim ts) with
    | none =>
      unfold readStep
      dsimp only
      rw [ht.trimStart_eq, ht.trimEnd_eq, hc]
      exact .fault (by simp)
    | some c =>
      rw [readStep_of_trimmed ht hc]
      exact readConstruct_names ⟨ih, located_of_read file depth⟩ _ (Construct.leads_of_of? ht hc) ht

end Expr

end ModelScript
