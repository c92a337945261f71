import RSFuzz.FoundationOrderedMap
import RSFuzz.FoundationWhileLoop
import RSFuzz.FoundationSubsequence
import RSFuzz.FoundationTiling
import RSFuzz.FoundationBinary64
import RSFuzz.FoundationWeightedDraw
import RSFuzz.FoundationBalancedWeights
import RSFuzz.FoundationBlockCollapse
import RSFuzz.FoundationSquareFree
import RSFuzz.FoundationOptionFold
import RSFuzz.FoundationFuel
import RSFuzz.FoundationCounting
import RSFuzz.FoundationPattern
import RSFuzz.FoundationNumbering
import RSFuzz.FoundationWeighted
import RSFuzz.FoundationStableSort
import RSFuzz.Grammar
import RSFuzz.DerivationTree
import RSFuzz.GrammarDepths
import RSFuzz.LevelTree
import RSFuzz.Generator
import RSFuzz.TreeToString
import RSFuzz.TribbleGenerator
import RSFuzz.LevelTreeInvariants
import RSFuzz.LevelTreeDerivation
import RSFuzz.GeneratorMatching
import RSFuzz.GeneratorSteps
import RSFuzz.GeneratorRuns
import RSFuzz.GeneratorSelection
import RSFuzz.GeneratorRedraws
import RSFuzz.GeneratorValidity
import RSFuzz.DepthTable
import RSFuzz.GeneratorTermination
import RSFuzz.TribbleGuided
import RSFuzz.TribbleCoverage
import RSFuzz.RuleTables
import RSFuzz.RuleAvoidance
import RSFuzz.PruningPrecision
import RSFuzz.SequenceExtraction
import RSFuzz.CaptureRecognition
import RSFuzz.SequenceShape
import RSFuzz.FoundationSieve
import RSFuzz.RuleInclusion
import RSFuzz.SubpathComparison
import RSFuzz.CaptureRules
import RSFuzz.SequenceRanking
import RSFuzz.RuleBuilding
import RSFuzz.RuleMerging
import RSFuzz.MergeFailures
import RSFuzz.ClusterTables
import RSFuzz.CaptureRun
import RSFuzz.CoverageHandover
import RSFuzz.RecaptureSchedule
import RSFuzz.ErrorNames
import RSFuzz.RuleUpdate
import RSFuzz.ExpansionTokens
import RSFuzz.DepthFixpoint
import RSFuzz.TableEncoding
import RSFuzz.OnlineRecord
import RSFuzz.BnfParsing
import RSFuzz.BnfRoundTrip
import RSFuzz.TransRegexp
import RSFuzz.SubpathMinimality
import RSFuzz.SequenceKeys
import RSFuzz.WalkCompleteness
import RSFuzz.SequenceChoices
import RSFuzz.ExtractionTotality
import RSFuzz.CaptureLookups
import RSFuzz.CaptureTotality
import RSFuzz.RecaptureWidening
import RSFuzz.DerivationNumbers
import RSFuzz.FamilyMerging
import RSFuzz.GeneratorMain
import RSFuzz.TribbleMain
import RSFuzz.FoundationGrammarYield
import RSFuzz.GeneratorCompleteness
import RSFuzz.GrammarLanguage
import RSFuzz.WrittenTexts
import RSFuzz.GrammarFiles
import RSFuzz.FoundationWordLanguage
import RSFuzz.ExtendedRules
import RSFuzz.JsGrammar
import RSFuzz.CsvReading
import RSFuzz.CaptureProgress
import RSFuzz.RunFuel
import RSFuzz.IterationProgress
import RSFuzz.CaptureLoop
import RSFuzz.LoopFuzzers
import RSFuzz.LoopInvariant
import RSFuzz.RuleCompletion
import RSFuzz.RecapturePace
import RSFuzz.NaiveRules
import RSFuzz.NaiveRun
import RSFuzz.CollectedData
import RSFuzz.TestPhase
import RSFuzz.OnlineTexts
import RSFuzz.CoverageFiles
import RSFuzz.RatioHistogram
