import ResourceSelection.Decimal.Reading
import ResourceSelection.Decimal.Shortest
import ResourceSelection.Decimal.Written
import ResourceSelection.Document.Json
import ResourceSelection.Document.Reading
import ResourceSelection.Document.Record
import ResourceSelection.Document.Toml
import ResourceSelection.Document.Toml.Number
import ResourceSelection.Document.Toml.Plain
import ResourceSelection.Document.Toml.Text
import ResourceSelection.Document.Toml.Tree
import ResourceSelection.Document.Value
import ResourceSelection.Error
import ResourceSelection.Executor.Loop
import ResourceSelection.Executor.Manual
import ResourceSelection.Executor.Timer
import ResourceSelection.Group
import ResourceSelection.Membership.Carry
import ResourceSelection.Membership.Grouping
import ResourceSelection.Membership.Manager
import ResourceSelection.Membership.Roster
import ResourceSelection.Membership.Run
import ResourceSelection.Outcome
import ResourceSelection.Policy
import ResourceSelection.Policy.Context
import ResourceSelection.Policy.Flat
import ResourceSelection.Policy.Ratio
import ResourceSelection.Policy.Rule
import ResourceSelection.Probe
import ResourceSelection.Proofs.Acceptance
import ResourceSelection.Proofs.Agenda
import ResourceSelection.Proofs.Arithmetic
import ResourceSelection.Proofs.Arrival
import ResourceSelection.Proofs.Binary64
import ResourceSelection.Proofs.Bounds
import ResourceSelection.Proofs.Building
import ResourceSelection.Proofs.Carrying
import ResourceSelection.Proofs.Change
import ResourceSelection.Proofs.Checker
import ResourceSelection.Proofs.Commuting
import ResourceSelection.Proofs.Contention
import ResourceSelection.Proofs.Continuity
import ResourceSelection.Proofs.Cursors
import ResourceSelection.Proofs.Dealings
import ResourceSelection.Proofs.Effects
import ResourceSelection.Proofs.Exact
import ResourceSelection.Proofs.Executor
import ResourceSelection.Proofs.Foresight
import ResourceSelection.Proofs.Frame
import ResourceSelection.Proofs.Freshness
import ResourceSelection.Proofs.Grouping.Assignment
import ResourceSelection.Proofs.Grouping.Checked
import ResourceSelection.Proofs.Grouping.Filling
import ResourceSelection.Proofs.Grouping.Landing
import ResourceSelection.Proofs.Grouping.Places
import ResourceSelection.Proofs.Grouping.Promotions
import ResourceSelection.Proofs.Grouping.Removals
import ResourceSelection.Proofs.Handover
import ResourceSelection.Proofs.InFlight
import ResourceSelection.Proofs.Judgement
import ResourceSelection.Proofs.Layout
import ResourceSelection.Proofs.Lifecycle
import ResourceSelection.Proofs.Listening
import ResourceSelection.Proofs.Locality
import ResourceSelection.Proofs.Managers
import ResourceSelection.Proofs.Members
import ResourceSelection.Proofs.Moves
import ResourceSelection.Proofs.Newcomers
import ResourceSelection.Proofs.Nonnegative
import ResourceSelection.Proofs.Order
import ResourceSelection.Proofs.Overlap
import ResourceSelection.Proofs.Pairing
import ResourceSelection.Proofs.Passes
import ResourceSelection.Proofs.Paths
import ResourceSelection.Proofs.Preference
import ResourceSelection.Proofs.Proportion
import ResourceSelection.Proofs.Rates
import ResourceSelection.Proofs.Rational
import ResourceSelection.Proofs.Records
import ResourceSelection.Proofs.Recovery
import ResourceSelection.Proofs.Refusal
import ResourceSelection.Proofs.Registration
import ResourceSelection.Proofs.Requests
import ResourceSelection.Proofs.Requirements
import ResourceSelection.Proofs.Resting
import ResourceSelection.Proofs.Roster
import ResourceSelection.Proofs.Rounding
import ResourceSelection.Proofs.Sampling
import ResourceSelection.Proofs.Scanning
import ResourceSelection.Proofs.Selection
import ResourceSelection.Proofs.Seniority
import ResourceSelection.Proofs.Shares
import ResourceSelection.Proofs.Sources
import ResourceSelection.Proofs.Sparing
import ResourceSelection.Proofs.Stepwise
import ResourceSelection.Proofs.Streaks
import ResourceSelection.Proofs.Succession
import ResourceSelection.Proofs.Tending
import ResourceSelection.Proofs.Ticks
import ResourceSelection.Proofs.Transparency
import ResourceSelection.Proofs.Turns
import ResourceSelection.Proofs.Watching
import ResourceSelection.Random
import ResourceSelection.Range
import ResourceSelection.Resource
import ResourceSelection.Resource.Declaration
import ResourceSelection.Resource.Shared
import ResourceSelection.Resource.Status
import ResourceSelection.Sampling.Alias
import ResourceSelection.Sampling.Priority
import ResourceSelection.Sampling.Weighted
import ResourceSelection.Scalar
import ResourceSelection.Scalar.Binary64
import ResourceSelection.Scalar.Rational
import ResourceSelection.Selector.Basic
import ResourceSelection.Selector.Build
import ResourceSelection.Selector.Check
import ResourceSelection.Selector.Crowd
import ResourceSelection.Selector.Listing
import ResourceSelection.Selector.Report
import ResourceSelection.Selector.Run
import ResourceSelection.Selector.Selection
import ResourceSelection.Settings
import ResourceSelection.Settings.Sources
import ResourceSelection.Tally
import ResourceSelection.Text.Blank
import ResourceSelection.Text.Quoted
import ResourceSelection.Text.Unseen
