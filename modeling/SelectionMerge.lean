import SelectionMerge.Report.Layout
import SelectionMerge.Session
import SelectionMerge.Walk.Trace
import SelectionMerge.Proofs.Reach.Closure
import SelectionMerge.Proofs.Reach.StrongComponents
import SelectionMerge.Proofs.Build.Assembly
import SelectionMerge.Proofs.Merge.Order
import SelectionMerge.Proofs.Merge.Unknown
import SelectionMerge.Proofs.Merge.Segments
import SelectionMerge.Proofs.Merge.Union
import SelectionMerge.Proofs.Merge.Spreads
import SelectionMerge.Proofs.Merge.Wrapping
import SelectionMerge.Proofs.Merge.Termination
import SelectionMerge.Proofs.Merge.Nesting
import SelectionMerge.Proofs.Merge.Reselection
import SelectionMerge.Proofs.Check.Moments
import SelectionMerge.Proofs.Merge.ParentGroups
import SelectionMerge.Proofs.Check.Representation
import SelectionMerge.Proofs.Merge.Reporting
import SelectionMerge.Proofs.Document.Printing
import SelectionMerge.Proofs.Document.Calls
import SelectionMerge.Proofs.Document.Reading
import SelectionMerge.Proofs.Types.Shapes
import SelectionMerge.Proofs.Walk.Events
import SelectionMerge.Proofs.Report.Labels
import SelectionMerge.Proofs.Report.Texts
import SelectionMerge.Proofs.Merge.Comparisons
