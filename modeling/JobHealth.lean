import JobHealth.Main
import JobHealth.Proofs.Log.Failures
import JobHealth.Proofs.Log.Tally
import JobHealth.Proofs.Feed.Framing
import JobHealth.Proofs.Feed.Whole
import JobHealth.Proofs.Feed.CutOff
import JobHealth.Proofs.Feed.RoundTrip
import JobHealth.Proofs.Feed.Reading
import JobHealth.Proofs.Examination
import JobHealth.Proofs.FirstFailure
import JobHealth.Proofs.Report
import JobHealth.Proofs.Build
import JobHealth.Proofs.Url.Appended
import JobHealth.Proofs.Lockstep
import JobHealth.Proofs.Agreement
import JobHealth.Proofs.Client
import JobHealth.Proofs.ListingOrder
import JobHealth.Proofs.HangLines
import JobHealth.Proofs.Endpoint
import JobHealth.Proofs.ScanPlan
import JobHealth.Proofs.Number.Binary64
import JobHealth.Proofs.SuccessRate
import JobHealth.Proofs.FailingTests
import JobHealth.Proofs.Selection
import JobHealth.Proofs.Log.Pattern
import JobHealth.Proofs.Rates
import JobHealth.Proofs.Limits
import JobHealth.Proofs.Log.Grouping
import JobHealth.Proofs.Log.Recording
import JobHealth.Proofs.Feed.Waiting
import JobHealth.Proofs.RequestedPaths
import JobHealth.Proofs.SelectionNotes
import JobHealth.Proofs.Feed.Records
import JobHealth.Proofs.Feed.Block
import JobHealth.Proofs.ReportText
import JobHealth.Proofs.ReportColours
import JobHealth.Proofs.BuildText
import JobHealth.Proofs.FullHistory
import JobHealth.Proofs.PageNotes
import JobHealth.Proofs.Log.Padding
import JobHealth.Proofs.Settings.Layers
import JobHealth.Proofs.LogPlan
