import MacroTrace.Text.Blank

/-!
# Built-in names

Names that the language standards or common compilers define.
-/

namespace MacroTrace

def builtinNames : List Text := [
  "__VA_ARGS__", "__VA_OPT__", "__FILE__", "__LINE__", "__DATE__", "__TIME__",
  "__TIMESTAMP__", "__STDC__", "__STDC_VERSION__", "__STDC_HOSTED__",
  "__cplusplus", "__func__", "__FUNCTION__", "__PRETTY_FUNCTION__", "__GNUC__",
  "__GNUC_MINOR__", "__GNUC_PATCHLEVEL__", "__clang__", "__clang_major__",
  "__clang_minor__", "__clang_patchlevel__", "_MSC_VER", "_MSC_FULL_VER",
  "__APPLE__", "__linux__", "__unix__", "__MINGW32__", "__MINGW64__", "_WIN32",
  "_WIN64", "__x86_64__", "__i386__", "__arm__", "__aarch64__", "__attribute__",
  "__declspec"
].map String.toList

def isBuiltin (name : Text) : Bool :=
  builtinNames.contains name

end MacroTrace
