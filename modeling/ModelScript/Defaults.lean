import ModelScript.Config.Schema
import ModelScript.Template.Directory

/-!
# Defaults

What a run depends on and is not told: how deep nesting may go, which templates it renders with, and
what its configuration has to look like.  Everything else holds whatever these are.
-/

namespace ModelScript

instance : DepthLimits where
  reading := 500
  rendering := 1000

/-- Templates with slots, of which nothing can come but texts and template errors. -/
instance : TemplateEngine where
  Error := TemplateError
  Crash := Empty
  errorMessage := TemplateError.message
  crashMessage crash := nomatch crash
  templates := templatesIn

instance : ConfigSchema where
  settings? := BuildSetting.allOfDocument?

end ModelScript
