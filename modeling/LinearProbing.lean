import LinearProbing.Codec.Format
import LinearProbing.Command
import LinearProbing.Table.Drain
import LinearProbing.Table.Outline
import LinearProbing.TypedMap
import LinearProbing.TypedSet
import LinearProbing.Proofs.ProbeWalk
import LinearProbing.Proofs.Placement
import LinearProbing.Proofs.WellFormed
import LinearProbing.Proofs.CapacityFit
import LinearProbing.Proofs.TableGrowth
import LinearProbing.Proofs.TableUpdates
import LinearProbing.Proofs.Traversal
import LinearProbing.Proofs.Session
import LinearProbing.Proofs.Representation
import LinearProbing.Proofs.Contents
import LinearProbing.Proofs.Refinement
import LinearProbing.Proofs.Refusals
import LinearProbing.Proofs.Layout
import LinearProbing.Proofs.HistogramSums
import LinearProbing.Proofs.SettlingOrder
import LinearProbing.Proofs.BuiltTables
import LinearProbing.Proofs.InsertionOrder
import LinearProbing.Proofs.Guarded
import LinearProbing.Proofs.GuardedSearch
import LinearProbing.Proofs.GuardedUpdates
import LinearProbing.Proofs.GuardedCounts
import LinearProbing.Proofs.AcceptedCalls
import LinearProbing.Proofs.Safety
import LinearProbing.Proofs.CodecLaws
import LinearProbing.Proofs.Dictionary
import LinearProbing.Proofs.TypedMapSessions
import LinearProbing.Proofs.SetEquality
import LinearProbing.Proofs.SetSymmetry
import LinearProbing.Proofs.DrainSteps
import LinearProbing.Proofs.SlotUsage
import LinearProbing.Proofs.ReservedRoom
import LinearProbing.Proofs.LeastCapacity
import LinearProbing.Proofs.GradualGrowth
import LinearProbing.Proofs.GrowthTrace
import LinearProbing.Proofs.AbandonedDrain
import LinearProbing.Proofs.MovedEntries
import LinearProbing.Proofs.GrowthOnWrite
import LinearProbing.Proofs.SlotHistories
import LinearProbing.Proofs.SetMembership
import LinearProbing.Proofs.ExactCapacity
import LinearProbing.Proofs.EntryWalks
import LinearProbing.Proofs.TypedListing
import LinearProbing.Proofs.ProbeTrails
import LinearProbing.Proofs.ProbeHistogram
import LinearProbing.Proofs.HashStates
import LinearProbing.Proofs.ExactFormats
import LinearProbing.Proofs.MeanDistance
import LinearProbing.Proofs.ProbeOutcomes
import LinearProbing.Proofs.BarCharts
import LinearProbing.Proofs.SurveyReports
import LinearProbing.Proofs.SurveyTranscripts
