import LocaleWrap.Main
import LocaleWrap.Proofs.Rules.Expressions
import LocaleWrap.Proofs.Localization.LedgerExact
import LocaleWrap.Proofs.Localization.Idempotence
import LocaleWrap.Proofs.Localization.Composition
import LocaleWrap.Proofs.Report.Agreement
import LocaleWrap.Proofs.Batch.Mirroring
import LocaleWrap.Proofs.Program.ReportOnly
import LocaleWrap.Proofs.Tree.Files
import LocaleWrap.Proofs.Batch.Stopping
import LocaleWrap.Proofs.Batch.Separation
import LocaleWrap.Proofs.Report.BatchReport
import LocaleWrap.Proofs.Program.ExitStatus
import LocaleWrap.Proofs.Program.Check
import LocaleWrap.Proofs.Batch.Totals
import LocaleWrap.Proofs.Settings.RootDetection
import LocaleWrap.Proofs.Localization.LineEndings
import LocaleWrap.Proofs.Localization.Recovery
import LocaleWrap.Proofs.Report.DiffPatch
import LocaleWrap.Proofs.Targets.Blocks
import LocaleWrap.Proofs.Settings.BrokenConfig
import LocaleWrap.Proofs.Localization.GivenFields
import LocaleWrap.Proofs.Tree.Inside
import LocaleWrap.Proofs.Settings.WrittenSettings
import LocaleWrap.Proofs.Yaml.Aliases
