import PhpDoc.Text.Styled
/-!
The sorts of finding, each with its code, its severity and the template of its message.
-/
namespace PhpDoc

inductive Severity
  | error
  | warning
deriving DecidableEq, Repr, Inhabited

namespace Severity

def label : Severity → String
  | .error => "error"
  | .warning => "warning"

def colour : Severity → Colour
  | .error => .red
  | .warning => .yellow

end Severity

inductive Code
  | parseError
  | templateName
  | templateType
  | templateTypeStyle
  | classPropType
  | classPropName
  | classPropTypeStyle
  | funParamType
  | funParamName
  | funParamCount
  | funParamTypeMismatch
  | funParamNameMismatch
  | funParamPassSplatMismatch
  | funParamTypeStyle
  | funRetType
  | funRetTypeMismatch
  | funRetMultiple
  | funRetTypeStyle
  | varType
  | varTypeMismatch
  | varNameMismatch
  | varMultiple
  | varTypeStyle
  | tagMisplaced
  | funDocMissing
  | funParamMissing
  | funRetMissing
  | varDocMissing
  | varMissing
  | internalFix
deriving DecidableEq, Repr, Inhabited

namespace Code

def all : List Code := [
  .parseError, .templateName, .templateType, .templateTypeStyle, .classPropType, .classPropName,
  .classPropTypeStyle, .funParamType, .funParamName, .funParamCount, .funParamTypeMismatch,
  .funParamNameMismatch, .funParamPassSplatMismatch, .funParamTypeStyle, .funRetType,
  .funRetTypeMismatch, .funRetMultiple, .funRetTypeStyle, .varType, .varTypeMismatch,
  .varNameMismatch, .varMultiple, .varTypeStyle, .tagMisplaced, .funDocMissing, .funParamMissing,
  .funRetMissing, .varDocMissing, .varMissing, .internalFix]

def id : Code → String
  | .parseError => "phpdoc_parse_error"
  | .templateName => "phpdoc_template_name"
  | .templateType => "phpdoc_template_type"
  | .templateTypeStyle => "phpdoc_template_type_style"
  | .classPropType => "phpdoc_class_prop_type"
  | .classPropName => "phpdoc_class_prop_name"
  | .classPropTypeStyle => "phpdoc_class_prop_type_style"
  | .funParamType => "phpdoc_fun_param_type"
  | .funParamName => "phpdoc_fun_param_name"
  | .funParamCount => "phpdoc_fun_param_count"
  | .funParamTypeMismatch => "phpdoc_fun_param_type_mismatch"
  | .funParamNameMismatch => "phpdoc_fun_param_name_mismatch"
  | .funParamPassSplatMismatch => "phpdoc_fun_param_pass_splat_mismatch"
  | .funParamTypeStyle => "phpdoc_fun_param_type_style"
  | .funRetType => "phpdoc_fun_ret_type"
  | .funRetTypeMismatch => "phpdoc_fun_ret_type_mismatch"
  | .funRetMultiple => "phpdoc_fun_ret_multiple"
  | .funRetTypeStyle => "phpdoc_fun_ret_type_style"
  | .varType => "phpdoc_var_type"
  | .varTypeMismatch => "phpdoc_var_type_mismatch"
  | .varNameMismatch => "phpdoc_var_name_mismatch"
  | .varMultiple => "phpdoc_var_multiple"
  | .varTypeStyle => "phpdoc_var_type_style"
  | .tagMisplaced => "phpdoc_tag_misplaced"
  | .funDocMissing => "phpdoc_fun_doc_missing"
  | .funParamMissing => "phpdoc_fun_param_missing"
  | .funRetMissing => "phpdoc_fun_ret_missing"
  | .varDocMissing => "phpdoc_var_doc_missing"
  | .varMissing => "phpdoc_var_missing"
  | .internalFix => "phpdoc_internal_fix"

def severity : Code → Severity
  | .templateTypeStyle | .classPropTypeStyle | .funParamPassSplatMismatch | .funParamTypeStyle
  | .funRetTypeStyle | .varTypeStyle | .funDocMissing | .funParamMissing | .funRetMissing
  | .varDocMissing | .varMissing => .warning
  | _ => .error

/-- The message of a finding, with `%s` where an argument goes. -/
def template : Code → String
  | .parseError => "PHPDoc failed to parse source: %s"
  | .templateName => "PHPDoc template name missing or malformed"
  | .templateType => "PHPDoc template type missing or malformed"
  | .templateTypeStyle => "PHPDoc template type doesn't conform to recommended style"
  | .classPropType => "PHPDoc class property type missing or malformed"
  | .classPropName => "PHPDoc class property name missing or malformed"
  | .classPropTypeStyle => "PHPDoc class property type doesn't conform to recommended style"
  | .funParamType => "PHPDoc function parameter %s type missing or malformed"
  | .funParamName => "PHPDoc function parameter %s name missing or malformed"
  | .funParamCount => "PHPDoc number of function parameters doesn't match actual number"
  | .funParamTypeMismatch => "PHPDoc function parameter %s type mismatch"
  | .funParamNameMismatch => "PHPDoc function parameter %s name mismatch"
  | .funParamPassSplatMismatch =>
    "PHPDoc function parameter %s splat mismatch or pass by reference mismatch"
  | .funParamTypeStyle => "PHPDoc function parameter %s type doesn't conform to recommended style"
  | .funRetType => "PHPDoc function return type missing or malformed"
  | .funRetTypeMismatch => "PHPDoc function return type mismatch"
  | .funRetMultiple => "PHPDoc multiple function @return tags, put in one tag separated by |"
  | .funRetTypeStyle => "PHPDoc function return type doesn't conform to recommended style"
  | .varType => "PHPDoc var type missing or malformed"
  | .varTypeMismatch => "PHPDoc var type mismatch"
  | .varNameMismatch => "PHPDoc var name mismatch"
  | .varMultiple => "PHPDoc multiple @var tags"
  | .varTypeStyle => "PHPDoc var type doesn't conform to recommended style"
  | .tagMisplaced => "PHPDoc %s tag is not expected here"
  | .funDocMissing => "PHPDoc function is not documented"
  | .funParamMissing => "PHPDoc function parameter %s not documented"
  | .funRetMissing => "PHPDoc missing function @return tag"
  | .varDocMissing => "PHPDoc variable or constant is not documented"
  | .varMissing => "PHPDoc missing @var tag"
  | .internalFix => "PHPDoc internal error applying fix: %s"

def ofId? (id : String) : Option Code :=
  all.find? fun c => c.id == id

def asksForDocs : Code → Bool
  | .funDocMissing | .funParamMissing | .funRetMissing | .varDocMissing | .varMissing => true
  | _ => false

def isStyle : Code → Bool
  | .templateTypeStyle | .classPropTypeStyle | .funParamTypeStyle | .funRetTypeStyle
  | .varTypeStyle => true
  | _ => false

theorem ofId?_id (c : Code) : ofId? c.id = some c := by
  cases c <;> decide

end Code
end PhpDoc
