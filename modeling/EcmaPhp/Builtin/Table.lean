/-! Built-in functions and constants of the source language and what stands for them in PHP. -/
namespace EcmaPhp.Builtin

/-- Methods whose receiver becomes the first argument. -/
def receiverFirst : List (String × String) := [
  ("push", "array_push"),
  ("pop", "array_pop"),
  ("shift", "array_shift"),
  ("unshift", "array_unshift"),
  ("reverse", "array_reverse"),
  ("concat", "array_merge"),
  ("slice", "array_slice"),
  ("filter", "array_filter"),
  ("reduce", "array_reduce"),
  ("toUpperCase", "strtoupper"),
  ("toLowerCase", "strtolower"),
  ("trim", "trim"),
  ("trimStart", "ltrim"),
  ("trimEnd", "rtrim"),
  ("startsWith", "str_starts_with"),
  ("endsWith", "str_ends_with"),
  ("repeat", "str_repeat"),
  ("toString", "strval")]

/-- Methods whose receiver becomes the first argument if it is known to be a string. -/
def stringReceiverFirst : List (String × String) := [
  ("indexOf", "strpos"),
  ("includes", "str_contains"),
  ("slice", "substr")]

/-- Methods whose receiver follows the arguments. -/
def receiverLast : List (String × String) := [
  ("indexOf", "array_search"),
  ("includes", "in_array"),
  ("join", "implode"),
  ("split", "explode"),
  ("map", "array_map"),
  ("replace", "str_replace"),
  ("hasOwnProperty", "array_key_exists")]

/-- Functions of built-in objects. -/
def staticCalls : List ((String × String) × String) := [
  (("Object", "keys"), "array_keys"),
  (("Object", "values"), "array_values"),
  (("Object", "assign"), "array_merge"),
  (("Array", "isArray"), "is_array"),
  (("JSON", "stringify"), "json_encode"),
  (("JSON", "parse"), "json_decode"),
  (("Math", "floor"), "floor"),
  (("Math", "ceil"), "ceil"),
  (("Math", "round"), "round"),
  (("Math", "abs"), "abs"),
  (("Math", "max"), "max"),
  (("Math", "min"), "min"),
  (("Math", "pow"), "pow"),
  (("Math", "sqrt"), "sqrt"),
  (("Math", "random"), "lcg_value"),
  (("Number", "isInteger"), "is_int"),
  (("String", "fromCharCode"), "chr"),
  (("console", "log"), "var_dump"),
  (("console", "error"), "error_log")]

def globalCalls : List (String × String) := [
  ("parseInt", "intval"),
  ("parseFloat", "floatval"),
  ("isNaN", "is_nan"),
  ("String", "strval"),
  ("Boolean", "boolval"),
  ("encodeURIComponent", "rawurlencode"),
  ("decodeURIComponent", "rawurldecode")]

/-- Constants of built-in objects. -/
def staticMembers : List ((String × String) × String) := [
  (("Math", "PI"), "M_PI"),
  (("Math", "E"), "M_E"),
  (("Number", "MAX_SAFE_INTEGER"), "PHP_INT_MAX"),
  (("Number", "MIN_SAFE_INTEGER"), "PHP_INT_MIN")]

def globalConstants : List (String × String) := [
  ("NaN", "NAN"),
  ("Infinity", "INF")]

/-- Calls any callable with arguments of its own. -/
def invoke : String := "call_user_func"

/-- Calls any callable with a list of arguments. -/
def invokeWithList : String := "call_user_func_array"

/-- Appends to an array. -/
def append : String := "array_push"

end EcmaPhp.Builtin
