/-!
What a build tells while it runs: its progress, and records for its log.
-/

namespace SiteTree

inductive Phase where
  | exploring
  | rendering
  deriving DecidableEq, Repr

def Phase.text : Phase → String
  | .exploring => "exploring"
  | .rendering => "rendering"

inductive Level where
  | debug
  | info
  | warn
  deriving DecidableEq, Repr

inductive Topic where
  | build
  | walk
  | names
  | ignore
  | assets
  | stylesheet
  | progress
  | settings
  deriving DecidableEq, Repr

def Topic.text : Topic → String
  | .build => "statictron::processor"
  | .walk => "statictron::walker"
  | .names => "statictron::expand"
  | .ignore => "statictron::ignore"
  | .assets => "statictron::hash"
  | .stylesheet => "statictron::transform::stylesheet"
  | .progress => "statictron::options"
  | .settings => "statictron::config"

inductive Event where
  | progress (phase : Phase) (text : String)
  | record (level : Level) (topic : Topic) (text : String)
  deriving DecidableEq, Repr

/-- The line that the log shows for a record. Only a verbose log names topics and has details. -/
def Event.logLine? (verbose : Bool) : Event → Option String
  | .progress _ _ => none
  | .record level topic text =>
    let mark := match level with
      | .debug => "[DEBUG"
      | .info => "[INFO "
      | .warn => "[WARN "
    if verbose then some (mark ++ " " ++ topic.text ++ "] " ++ text)
    else if level = .debug then none
    else some (mark ++ "] " ++ text)

end SiteTree
