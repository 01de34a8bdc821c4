/-!
# Environments

The variables that a program is started with.
-/

namespace Offside

/-- Variables and their values. -/
abbrev Environment := List (String × String)

namespace Environment

/-- The variables that programs are started with where nothing else is known. -/
def usual : Environment :=
  [("HOME", "/root"), ("PATH", "/usr/local/sbin:/usr/local/bin:/usr/sbin:/usr/bin:/sbin:/bin")]

/-- An environment with other variables, which replace those of the same names. -/
def updated (environment others : Environment) : Environment :=
  environment.filter (fun (name, _) => (others.lookup name).isNone) ++ others

end Environment

end Offside
