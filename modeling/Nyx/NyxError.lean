/-! `nyx_core::error`: categories that scripts rely on, and errors that carry one. -/
namespace Nyx.Core

inductive ErrorCategory
  | config
  | notFound
  | resolution
  | alpm
  | io
  | transaction
  | privilege
  | invalidInput
  | internal
  deriving DecidableEq, Repr

namespace ErrorCategory

def code : ErrorCategory → String
  | config => "config"
  | notFound => "not_found"
  | resolution => "resolution"
  | alpm => "alpm"
  | io => "io"
  | transaction => "transaction"
  | privilege => "privilege"
  | invalidInput => "invalid_input"
  | internal => "internal"

def exitCode : ErrorCategory → Int32
  | config => 10
  | notFound => 11
  | resolution => 12
  | alpm => 13
  | io => 14
  | transaction => 15
  | privilege => 16
  | invalidInput => 17
  | internal => 70

/-- Scripts can tell the categories apart by either. -/
theorem code_injective {c d : ErrorCategory} (h : c.code = d.code) : c = d := by
  cases c <;> cases d <;> first | rfl | (revert h; decide)

theorem exitCode_injective {c d : ErrorCategory} (h : c.exitCode = d.exitCode) : c = d := by
  cases c <;> cases d <;> first | rfl | (revert h; decide)

end ErrorCategory

/-- A category, a message, and the error behind it. -/
structure NyxError (ε : Type) where
  category : ErrorCategory
  message : String
  source : Option ε

def NyxError.withSource {ε : Type} (category : ErrorCategory) (message : String) (source : ε) :
    NyxError ε :=
  ⟨category, message, some source⟩

end Nyx.Core
