import Anemone.Analysis.TheoremCalendarProof
import Anemone.Analysis.TheoremZoneLayoutProof
import Anemone.Analysis.TheoremFreeAtomicProof
import Anemone.Analysis.TheoremFlockRecordProof
import Anemone.Analysis.TheoremRangeSearchProof
import Anemone.Analysis.TheoremRemapProof
import Anemone.Analysis.TheoremIsolationProof
import Anemone.Analysis.TheoremPrivateCopyProof
import Anemone.Analysis.TheoremLeafCommitProof
import Anemone.Analysis.TheoremFramePlacesProof
import Anemone.Analysis.TheoremSlabPlacesProof
import Anemone.Analysis.TheoremWakePlacementProof
import Anemone.Analysis.TheoremWaitRoundsProof
import Anemone.Analysis.TheoremPublishProof
import Anemone.Analysis.TheoremMutexProof
import Anemone.Analysis.TheoremTimerQueueProof
import Anemone.Analysis.TheoremClockStepProof
import Anemone.Analysis.TheoremFutexProof
import Anemone.Analysis.TheoremEditedLinesProof
import Anemone.Analysis.TheoremPipeStreamProof
import Anemone.Analysis.TheoremFlockProof
import Anemone.Analysis.TheoremPrivilegesProof
