import Pfsnitch.Enforcement
import Pfsnitch.Policy.Meaning
import Pfsnitch.Policy.Reload
import Pfsnitch.FastPath
import Pfsnitch.Timeout
import Pfsnitch.Flush
import Pfsnitch.Answers
import Pfsnitch.Kernel.Hook
import Pfsnitch.Kernel.Traffic
import Pfsnitch.Kernel.Verdict
import Pfsnitch.Coverage
import Pfsnitch.Visibility
import Pfsnitch.Watermark
import Pfsnitch.Edits
import Pfsnitch.Names
import Pfsnitch.Orphans
import Pfsnitch.TwoPaths
import Pfsnitch.Resolves
import Pfsnitch.Consent
import Pfsnitch.MachineDeny
import Pfsnitch.Approval
import Pfsnitch.Appends
import Pfsnitch.BadLines
import Pfsnitch.Settings
import Pfsnitch.Backup
import Pfsnitch.Forget
import Pfsnitch.Removes
import Pfsnitch.Adds
import Pfsnitch.Held
import Pfsnitch.Listing
import Pfsnitch.Targets
import Pfsnitch.Guesses
import Pfsnitch.Freshness
import Pfsnitch.Rescans
import Pfsnitch.Headers
import Pfsnitch.Resets
import Pfsnitch.Decodes
import Pfsnitch.Exempt
import Pfsnitch.Stale
import Pfsnitch.Retries
import Pfsnitch.Questions
import Pfsnitch.Learns
import Pfsnitch.Identity
import Pfsnitch.Overlaps
import Pfsnitch.Seen
import Pfsnitch.Survives
import Pfsnitch.Cli.Apps
import Pfsnitch.LastUsed
import Pfsnitch.Lib.Json
import Pfsnitch.Cli.Json
import Pfsnitch.Exports
import Pfsnitch.Dns.Checked
import Pfsnitch.Delimits
import Pfsnitch.Checksums
import Pfsnitch.Calls
import Pfsnitch.Queries
import Pfsnitch.Gate
import Pfsnitch.Readers
import Pfsnitch.Heals
import Pfsnitch.Probe
import Pfsnitch.Commands
import Pfsnitch.Effects
import Pfsnitch.Reports
import Pfsnitch.Release
