/-!
What the program says about itself.
-/

namespace StablePlan

def versionLine : String := "horizon version 0.0.1"

def usage : String := "\n".intercalate [
  "usage: horizon [options] [file]",
  "",
  "Basic Options:",
  "  -h, --help              Print help and exit",
  "  -v, --verbose           Trace every stage to stderr",
  "  --outf=n                Use \x7b0=default|1=competition\x7d output",
  "  --stats                 Print statistics",
  "",
  "Scheduler Options:",
  "  -A n                    Run algorithm A with a queue of n lengths",
  "  -B r                    Run algorithm B with parameter r (default 0.9)",
  "  -C r                    Run algorithm C with ratio r",
  "  -M n                    Use at most n runs with B, n lengths with C (default 20)",
  "  -S n                    Step for horizon lengths 0, n, 2n, ... (default 5)",
  "  -F n                    Starting horizon length (default 0)",
  "  -T n                    Ending horizon length (default 3000)",
  "  -i n                    Decisions per restart (default 60, 0 for unbounded)",
  "  -r n                    Restarts per solve call (default 100, 0 for unbounded)",
  "  --time-limit=s          Seconds per solve call",
  "  --memory-limit=n        Do not ground past n MB",
  "  --keep-after-unsat      After finding n to be UNSAT, keep runs with m<n",
  "  --query=symbol          External marking the goal step (default query)",
  "  --skip=symbol           External forbidding actions at a step (default skip)",
  "",
  "Test Options:",
  "  --test[=file]           Check plans for serializability, with actions",
  "                          described by the template's facts or by file",
  "  --test-once             Re-solve once after a rejected plan (default)",
  "  --test-until-not-sat    Re-solve until no model is left",
  "  --test-minimal          Block a minimal set of actions, not the plan"]

end StablePlan
