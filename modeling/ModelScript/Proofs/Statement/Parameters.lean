import Mathlib.Data.List.Permutation
import ModelScript.Proofs.Statement.Items

/-!
# Lists of parameters

Which tokens the parameters of a function are read from: the parameters with commas between them,
line breaks around every one, and, if there are any, one comma more behind the last
(`ListsParameters`, `exists_yields_parameters_iff`).  So they are the tokens that write the
parameters, line breaks apart, unless they end in a comma (`parameters_written`).

The grammar knows no comma behind the last parameter, but a list is read until it ends, and it may
end behind a comma as well as behind a parameter (`parameters_trailing_comma`).
-/

namespace ModelScript

open Token (Blank unbroken)
open Logged (yields_bind yields_pure yields_pure_pair)

/-! ## What is read is listed -/

/-- The reader takes the tokens of what it makes, without a warning. -/
def Reader.Spells {α : Type} (p : Reader α) (tokens : α → List Token) : Prop :=
  ∀ {u v n a}, (p u).Yields n (a, v) → n = 0 ∧ u.tokens = tokens a ++ v.tokens

namespace Inner

variable {r : Inner}

theorem readType_spells (hr : r.type.Spells TypeRef.tokens) :
    r.readType.Spells TypeRef.tokens := by
  intro u v n t h
  unfold readType at h
  obtain ⟨_, k, ⟨name, u1⟩, hname, h1, rfl⟩ := (yields_bind _ _ _ _).1 h
  obtain ⟨rfl, hu⟩ := Unread.eq_of_identifier hname
  dsimp only at h1
  split at h1
  · obtain ⟨rfl, rfl, rfl⟩ := (yields_pure_pair _ _ _ _ _).1 h1
    exact ⟨rfl, hu⟩
  · next u2 hof =>
    obtain ⟨hu1, hk⟩ := Unread.eq_of_accept? hof
    obtain rfl := Unread.eq_keyword_of_kind hk
    obtain ⟨_, _, ⟨element, u3⟩, ht, h2, rfl⟩ := (yields_bind _ _ _ _).1 h1
    obtain ⟨rfl, hu2⟩ := hr ht
    obtain ⟨rfl, rfl, rfl⟩ := (yields_pure_pair _ _ _ _ _).1 h2
    exact ⟨rfl, by rw [hu, hu1, hu2]; rfl⟩

theorem type_spells (file : String) (depth : Nat) :
    (atDepth file depth).type.Spells TypeRef.tokens := by
  induction depth with
  | zero => exact fun h => absurd h (Logged.not_yields_fail _ _ _)
  | succ depth ih => exact readType_spells ih

theorem parameter_spells (hr : r.type.Spells TypeRef.tokens) :
    r.parameter.Spells fun p => parameterTokens [p] := by
  intro u v n p h
  unfold parameter at h
  obtain ⟨_, _, ⟨name, u1⟩, hname, h1, rfl⟩ := (yields_bind _ _ _ _).1 h
  obtain ⟨_, _, u2, has, h2, rfl⟩ := (yields_bind _ _ _ _).1 h1
  obtain ⟨_, _, ⟨type, u3⟩, htype, h3, rfl⟩ := (yields_bind _ _ _ _).1 h2
  obtain ⟨rfl, hu⟩ := Unread.eq_of_identifier hname
  obtain ⟨rfl, hu1⟩ := Unread.eq_of_word has
  obtain ⟨rfl, hu2⟩ := hr htype
  obtain ⟨rfl, rfl, rfl⟩ := (yields_pure_pair _ _ _ _ _).1 h3
  exact ⟨rfl, by rw [hu, hu1, hu2]; rfl⟩

/-- The fuel of a list never runs out, since each parameter takes a token. -/
theorem parametersFrom_lists (hr : r.type.Spells TypeRef.tokens) {fuel n last : Nat} {u : Unread}
    {ps : List Parameter} (hf : u.tokens.length ≤ fuel)
    (h : (r.parametersFrom fuel u).Yields n (ps, last)) :
    n = 0 ∧ ListsParameters u.tokens ps := by
  induction fuel generalizing n last u ps with
  | zero =>
    have hu : u.tokens = [] := List.eq_nil_of_length_eq_zero (Nat.le_zero.1 hf)
    have hblank : u.skipNewlines.tokens = [] := by simp [Unread.skipNewlines, hu, Token.trimStart]
    rw [r.parametersFrom_of_blank 0 hblank] at h
    obtain ⟨rfl, rfl, rfl⟩ := (yields_pure_pair _ _ _ _ _).1 h
    exact ⟨rfl, hu ▸ .nothing .nil⟩
  | succ fuel ih =>
    by_cases hblank : u.skipNewlines.tokens = []
    · rw [r.parametersFrom_of_blank _ hblank] at h
      obtain ⟨rfl, rfl, rfl⟩ := (yields_pure_pair _ _ _ _ _).1 h
      exact ⟨rfl, .nothing ((Token.trimStart_eq_nil_iff _).1 hblank)⟩
    · rw [r.parametersFrom_of_not_blank fuel hblank] at h
      obtain ⟨_, _, ⟨p, v⟩, hp, h1, rfl⟩ := (yields_bind _ _ _ _).1 h
      obtain ⟨rfl, hv⟩ := parameter_spells hr hp
      obtain ⟨as, ha, hu, -⟩ := Token.exists_eq_trimStart u.tokens
      have hu : u.tokens = as ++ (parameterTokens [p] ++ v.tokens) := hv ▸ hu
      obtain ⟨bs, hb, hbs, -⟩ := Token.exists_eq_trimStart v.tokens
      dsimp only at h1
      split at h1
      · next hend =>
        obtain ⟨rfl, rfl, rfl⟩ := (yields_pure_pair _ _ _ _ _).1 h1
        rw [hu]
        exact ⟨rfl, .last p ha ((Token.trimStart_eq_nil_iff _).1 (List.isEmpty_iff.1 hend))⟩
      · obtain ⟨_, _, ⟨t, w⟩, hcomma, h2, rfl⟩ := (yields_bind _ _ _ _).1 h1
        obtain ⟨rfl, hw, hk⟩ := Unread.eq_of_require hcomma
        obtain rfl := (Token.kind_eq_mark_iff t _).1 hk
        obtain ⟨_, _, ⟨ps, line⟩, hps, h3, rfl⟩ := (yields_bind _ _ _ _).1 h2
        obtain ⟨rfl, rfl, rfl⟩ := (yields_pure_pair _ _ _ _ _).1 h3
        have hv : v.tokens = bs ++ .mark .comma :: w.tokens := hw ▸ hbs
        rw [hv] at hu
        have hlen := congrArg List.length hu
        simp only [List.length_append, List.length_cons] at hlen
        obtain ⟨rfl, hrest⟩ := ih (u := w) (by omega) hps
        rw [hu]
        exact ⟨rfl, .cons p ha hb hrest⟩

end Inner

/-- Parameters are read exactly from the tokens that list them, if these may go deep enough. -/
theorem exists_yields_parameters_iff (file : String) (line : Nat) (ts : List Token)
    (ps : List Parameter) :
    (∃ depth n last, ((Inner.atDepth file depth).parameters ⟨ts, line⟩).Yields n (ps, last)) ↔
      ListsParameters ts ps := by
  constructor
  · rintro ⟨depth, n, last, h⟩
    exact (Inner.parametersFrom_lists (Inner.type_spells file depth) (Nat.le_refl _) h).2
  · intro h
    obtain ⟨d, hd⟩ := Inner.eventually_takesParameters ps
    have htypes := hd file d (Nat.le_refl d)
    exact ⟨d, 0, _, Inner.parametersFrom_takes h htypes (Nat.le_refl _) line⟩

/-! ## Commas -/

theorem TypeRef.ne_newline : (t : TypeRef) → ∀ a ∈ t.tokens, a ≠ .newline
  | plain name => by simp [TypeRef.tokens]
  | of name element => by simpa [TypeRef.tokens] using element.ne_newline

theorem TypeRef.count_comma : (t : TypeRef) → t.tokens.count (.mark .comma) = 0
  | plain name => rfl
  | of name element => by simpa [TypeRef.tokens] using element.count_comma

theorem TypeRef.getLast?_tokens : (t : TypeRef) → ∃ name, t.tokens.getLast? = some (.ident name)
  | plain name => ⟨name, rfl⟩
  | of name element => by
    obtain ⟨last, h⟩ := element.getLast?_tokens
    exact ⟨last, by simp [TypeRef.tokens, List.getLast?_cons, h]⟩

theorem unbroken_parameterTokens (p : Parameter) :
    unbroken (parameterTokens [p]) = parameterTokens [p] :=
  Token.unbroken_eq_self (by simpa [parameterTokens] using p.type.ne_newline)

/-- There is one comma less than there are parameters. -/
theorem count_parameterTokens (ps : List Parameter) :
    (parameterTokens ps).count (.mark .comma) = ps.length - 1 := by
  induction ps with
  | nil => rfl
  | cons p ps ih =>
    have hp : (parameterTokens [p]).count (.mark .comma) = 0 := by
      simpa [parameterTokens] using p.type.count_comma
    cases ps with
    | nil => exact hp
    | cons q qs =>
      rw [parameterTokens_cons p (by simp), List.count_append, hp, List.count_cons_self, ih]
      simp

/-- What writes parameters ends in the name of a type. -/
theorem getLast?_parameterTokens (ps : List Parameter) :
    (parameterTokens ps).getLast? ≠ some (.mark .comma) := by
  induction ps with
  | nil => simp [parameterTokens]
  | cons p ps ih =>
    cases ps with
    | nil =>
      obtain ⟨last, h⟩ := p.type.getLast?_tokens
      simp [parameterTokens, List.getLast?_cons, h]
    | cons q qs =>
      have hne : parameterTokens (q :: qs) ≠ [] := by cases qs <;> simp [parameterTokens]
      rwa [parameterTokens_cons p (by simp), List.getLast?_append_of_ne_nil _ (by simp),
        List.getLast?_cons_of_ne_nil hne]

/-- Line breaks apart, there is nothing but the parameters and the commas between them, and perhaps
a last comma. -/
theorem ListsParameters.unbroken_eq {ts : List Token} {ps : List Parameter}
    (h : ListsParameters ts ps) :
    unbroken ts = parameterTokens ps ∨
      ps ≠ [] ∧ unbroken ts = parameterTokens ps ++ [.mark .comma] := by
  induction h with
  | nothing hb => exact Or.inl hb.unbroken_eq
  | last p ha hb =>
    rw [Token.unbroken_append, Token.unbroken_append, ha.unbroken_eq, hb.unbroken_eq,
      unbroken_parameterTokens, List.nil_append, List.append_nil]
    exact Or.inl rfl
  | @cons p as bs rest ps ha hb h ih =>
    rw [Token.unbroken_append, Token.unbroken_append, Token.unbroken_append, ha.unbroken_eq,
      hb.unbroken_eq, unbroken_parameterTokens, Token.unbroken_cons_of_ne (by simp),
      List.nil_append, List.nil_append]
    by_cases hps : ps = []
    · subst hps
      rcases ih with hrest | ⟨hne, -⟩
      · exact Or.inr ⟨by simp, by rw [hrest]; rfl⟩
      · exact absurd rfl hne
    · rw [parameterTokens_cons p hps]
      rcases ih with hrest | ⟨-, hrest⟩
      · exact Or.inl (by rw [hrest])
      · exact Or.inr ⟨by simp, by rw [hrest]; simp⟩

/-- The tokens that parameters are read from, line breaks apart.  If they do not end in a comma,
they are the parameters with single commas between them; otherwise there is one comma more, behind
the last of them. -/
theorem parameters_written {file : String} {depth n line last : Nat} {ts : List Token}
    {ps : List Parameter}
    (h : ((Inner.atDepth file depth).parameters ⟨ts, line⟩).Yields n (ps, last)) :
    ((unbroken ts).getLast? ≠ some (.mark .comma) →
        ts.count (.mark .comma) = ps.length - 1 ∧ unbroken ts = parameterTokens ps) ∧
      ((unbroken ts).getLast? = some (.mark .comma) →
        ts.count (.mark .comma) = ps.length ∧ ps ≠ [] ∧
          unbroken ts = parameterTokens ps ++ [.mark .comma]) := by
  have hlists := (exists_yields_parameters_iff file line ts ps).1 ⟨depth, n, last, h⟩
  have hcount : ts.count (.mark .comma) = (unbroken ts).count (.mark .comma) :=
    (List.count_filter rfl).symm
  rw [hcount]
  rcases hlists.unbroken_eq with hts | ⟨hne, hts⟩
  · rw [hts]
    exact ⟨fun _ => ⟨count_parameterTokens ps, rfl⟩,
      fun hlast => absurd hlast (getLast?_parameterTokens ps)⟩
  · rw [hts]
    refine ⟨fun hlast => absurd List.getLast?_concat hlast, fun _ => ⟨?_, hne, rfl⟩⟩
    have := List.length_pos_iff.2 hne
    rw [List.count_append, count_parameterTokens, List.count_singleton_self]
    omega

/-- Two parameters with line breaks around the comma. -/
theorem parameters_written_broken :
    let ts : List Token := [.newline, .ident "a", .keyword .as', .ident "text", .newline,
      .mark .comma, .newline, .ident "b", .keyword .as', .ident "list", .keyword .of,
      .ident "number", .newline]
    let ps : List Parameter := [⟨"a", .plain "text"⟩, ⟨"b", .of "list" (.plain "number")⟩]
    ((Inner.atDepth "<string>" 2).parameters ⟨ts, 1⟩).Yields 0 (ps, 5) ∧
      ((unbroken ts).getLast? ≠ some (.mark .comma) →
          ts.count (.mark .comma) = ps.length - 1 ∧ unbroken ts = parameterTokens ps) ∧
        ((unbroken ts).getLast? = some (.mark .comma) →
          ts.count (.mark .comma) = ps.length ∧ ps ≠ [] ∧
            unbroken ts = parameterTokens ps ++ [.mark .comma]) := by
  intro ts ps
  have h : ((Inner.atDepth "<string>" 2).parameters ⟨ts, 1⟩).Yields 0 (ps, 5) :=
    ⟨by cbv, by cbv⟩
  exact ⟨h, parameters_written h⟩

/-- The list `a as text,` is read as one parameter, though a comma belongs between two. -/
theorem parameters_trailing_comma :
    let ts : List Token := [.ident "a", .keyword .as', .ident "text", .mark .comma]
    let ps : List Parameter := [⟨"a", .plain "text"⟩]
    tokenize "<string>" 1 "a as text,".toList = .ok ts ∧
      (∀ depth, ((Inner.atDepth "<string>" (depth + 1)).parameters ⟨ts, 1⟩).Yields 0 (ps, 1)) ∧
      ts.count (.mark .comma) ≠ ps.length - 1 ∧ unbroken ts ≠ parameterTokens ps := by
  intro ts ps
  have hlists : ListsParameters ts ps := .cons ⟨"a", .plain "text"⟩ .nil .nil (.nothing .nil)
  refine ⟨by rfl, fun depth => ?_, by decide, by decide⟩
  refine Inner.parametersFrom_takes hlists (fun p hp => ?_) (Nat.le_refl _) 1
  obtain rfl := List.mem_singleton.1 hp
  exact fun rest h => Inner.readType_takes_plain "text" h

end ModelScript
