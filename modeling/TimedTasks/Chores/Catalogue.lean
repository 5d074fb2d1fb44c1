import TimedTasks.Chores.Script
/-!
The chores by their names on the command line.
-/

namespace TimedTasks.Chores

def help : Script :=
  ["Cadence Development Tasks", "", "USAGE:", "    cargo xtask <TASK>", "", "TASKS:",
    "    ci             Run all CI checks (fmt, clippy, test-features, test, bench)",
    "    fmt            Check Rust code formatting",
    "    clippy         Run Clippy lints",
    "    test           Run all tests",
    "    bench          Compile benchmarks without running them",
    "    test-features  Verify the cadence-common feature tiers compile",
    "    audit          Audit dependencies for security vulnerabilities",
    "    help           Show this help message"].map .say

/-- A command that is named by its arguments. -/
def plain (arguments : List String) (failure : String) : Action :=
  .run arguments ("cargo " ++ " ".intercalate arguments) failure

def format : Script :=
  [plain ["fmt", "--all", "--", "--check"]
    "Format check failed. Run 'cargo fmt --all' to fix."]

def lint : Script :=
  [plain ["clippy", "--workspace", "--all-targets", "--all-features", "--", "-D", "warnings"]
    "Clippy run failed. See output above."]

def test : Script := [plain ["test", "--workspace", "--all-features"] "Tests failed"]

def benchmark : Script :=
  [plain ["bench", "-p", "cadence-executor", "--no-run"] "Benchmarks failed to build"]

def audit : Script :=
  [.probe ["audit", "--version"]
    ["cargo-audit is not installed.", "Install it with: cargo install cargo-audit"]
    "cargo-audit not found",
    plain ["audit"] "cargo-audit found vulnerabilities"]

/-- The features that are checked, each on its own; the first check has none. -/
def features : List (Option String) :=
  [none, some "foundation", some "observability", some "runtime", some "test-utils"]

/-- The check of one feature, which is the `number`th of all. -/
def featureCheck (number : Nat) (feature : Option String) : Script :=
  let label := feature.getD "default"
  let option := match feature with
    | some f => ["--features", f]
    | none => []
  let arguments := ["check", "-p", "cadence-common", "--no-default-features"] ++ option
  [.say ("\n[" ++ toString number ++ "/" ++ toString features.length ++ "] cargo " ++
      " ".intercalate arguments),
    .run arguments ("cargo check for '" ++ label ++ "'")
      ("Feature combination '" ++ label ++ "' failed to compile"),
    .say ("✅ Features '" ++ label ++ "' compiled successfully")]

def testFeatures : Script :=
  [.say ("Testing " ++ toString features.length ++ " cadence-common feature combinations...")] ++
    (features.zipIdx 1).flatMap (fun p => featureCheck p.2 p.1) ++
    [.say ("\n✅ All " ++ toString features.length ++
      " feature combinations compile successfully!")]

/-- All checks, each after a line that announces it. -/
def allChecks : Script :=
  [.say "==> Running CI checks...\n"] ++
    [.say "==> Step 1/5: Checking Rust format..."] ++ format ++
    [.say "\n==> Step 2/5: Running Clippy..."] ++ lint ++
    [.say "\n==> Step 3/5: Checking feature tiers..."] ++ testFeatures ++
    [.say "\n==> Step 4/5: Running tests..."] ++ test ++
    [.say "\n==> Step 5/5: Building benchmarks..."] ++ benchmark ++
    [.say "\n✓ All CI checks passed!"]

def unknown (name : String) : Script :=
  [.warn ("Unknown task: " ++ name), .warn ""] ++ help ++ [.fail "Unknown task"]

/-- The chores by their names. -/
def catalogue : List (String × Script) :=
  [("ci", allChecks), ("fmt", format), ("clippy", lint), ("test", test), ("bench", benchmark),
    ("audit", audit), ("test-features", testFeatures), ("help", help)]

/-- The chore that a command line asks for. Only its first argument matters. -/
def scriptOf : (arguments : List String) → Script
  | [] => help
  | name :: _ => (catalogue.lookup name).getD (unknown name)

end TimedTasks.Chores
