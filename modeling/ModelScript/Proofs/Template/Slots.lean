import ModelScript.Defaults
import ModelScript.Proofs.Template.Naming

/-!
# Templates with slots come to texts and template errors

A slot has nothing rendered but a field of its record or what such a field is made of.  So a
template with slots is tame, and these templates make an engine with nothing but template errors
(`onlyTemplateErrors`).
-/

namespace ModelScript

/-! ## Parts of a field -/

namespace Value

variable {fields : List (String × Value)} {v w : Value}

theorem mem_of_field? {name : String} (h : field? name fields = some v) : (name, v) ∈ fields := by
  induction fields with
  | nil => cases h
  | cons f rest ih =>
    rw [field?] at h
    split at h
    · next hname =>
      cases h
      exact hname ▸ List.mem_cons_self
    · exact List.mem_cons_of_mem f (ih h)

theorem Occurs.of_mem_items (hw : w ∈ v.items) {record : List (String × Value)}
    (h : Occurs record w) : Occurs record v := by
  cases v with
  | text s =>
    obtain ⟨c, -, rfl⟩ := List.mem_map.mp hw
    exact absurd h (not_occurs_text _)
  | list items => exact .item hw h
  | record fields =>
    obtain ⟨f, -, rfl⟩ := List.mem_map.mp hw
    exact absurd h (not_occurs_text _)

end Value

/-! ## Filling in -/

namespace Piece

variable {render : Value → Fills String} {fields : List (String × Value)}

theorem caught_find (name : String) : Caught (find fields name) := by
  unfold find
  cases Value.field? name fields with
  | none =>
    intro e he
    cases he
    exact trivial
  | some v => exact .pure v

theorem field?_of_find {name : String} {v : Value} (h : find fields name = .ok v) :
    Value.field? name fields = some v := by
  unfold find at h
  split at h
  · next hfield =>
    cases h
    exact hfield
  · cases h

theorem caught_joinerText (joiner : Joiner) : Caught (joinerText fields joiner) := by
  cases joiner with
  | fixed text => exact .pure text
  | field name => exact .map _ (caught_find name)

theorem caught_fillSlot (h : ∀ v, (∀ r, Value.Occurs r v → Value.Occurs r (.record fields)) →
    Caught (render v)) (slot : Slot) : Caught (fillSlot render fields slot) := by
  have hfield {name : String} {v : Value} (hv : find fields name = .ok v) :
      ∀ r, Value.Occurs r v → Value.Occurs r (.record fields) :=
    fun _ => .field (Value.mem_of_field? (field?_of_find hv))
  cases slot with
  | text name => exact .map _ (caught_find name)
  | rendered name => exact .bind (caught_find name) fun v hv => h v (hfield hv)
  | joined name eachRendered joiner =>
    refine .bind (caught_joinerText joiner) fun between _ => ?_
    refine .bind (caught_find name) fun v hv => ?_
    have hitems : Caught (v.items.mapM render) :=
      .mapM fun w hw => h w fun r hr => hfield hv r (.of_mem_items hw hr)
    dsimp only
    split
    · exact .bind hitems fun items _ => .pure (between.intercalate items)
    · exact .pure (between.intercalate (v.items.map Value.asText))

mutual

theorem caught_fillPiece (h : ∀ v, (∀ r, Value.Occurs r v → Value.Occurs r (.record fields)) →
    Caught (render v)) : (p : Piece) → Caught (fillPiece render fields p)
  | .literal c => .pure (String.singleton c)
  | .slot s => caught_fillSlot h s
  | .section name present absent => by
    have hpresent := caught_fill h present
    have habsent := caught_fill h absent
    rw [fillPiece]
    split
    · exact hpresent
    · exact habsent

theorem caught_fill (h : ∀ v, (∀ r, Value.Occurs r v → Value.Occurs r (.record fields)) →
    Caught (render v)) : (ps : List Piece) → Caught (fill render fields ps)
  | [] => .pure ""
  | p :: rest =>
    .bind (caught_fillPiece h p) fun s _ => .bind (caught_fill h rest) fun t _ => .pure (s ++ t)

end

end Piece

theorem onlyTemplateErrors : TemplateEngine.OnlyTemplateErrors := by
  intro files directory name
  show Caught (templatesIn files directory name) ∧
    ∀ template, templatesIn files directory name = .ok template → Template.IsTame template
  unfold templatesIn
  constructor
  · intro e he
    split at he
    · cases he
      exact trivial
    · dsimp only at he
      split at he
      · cases he
        exact trivial
      · cases he
        exact trivial
      · split at he
        · cases he
        · cases he
          exact trivial
  · intro template htemplate
    split at htemplate
    · cases htemplate
    · dsimp only at htemplate
      split at htemplate
      · cases htemplate
      · cases htemplate
      · split at htemplate
        · next pieces _ =>
          cases htemplate
          exact fun render fields h => Piece.caught_fill h pieces
        · cases htemplate

end ModelScript
